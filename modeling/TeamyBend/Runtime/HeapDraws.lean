/-
# The blocks of a ticket

A ticket gives its blocks in the order of the request, however their initialization is put between:
initializing a block writes its own cells only, and the rest of the ticket goes through other
blocks.
-/
import TeamyBend.Runtime.HeapBundles

namespace TeamyBend.Runtime.BlockHeap

open Library (Chain)

variable {e : Option Env} {h h' h₀ : Heap} {blocks : List Block} {status : Nat → Status}
  {free : Nat → List Nat} {held due taken : List Block} {b c : Block} {loc cls : Nat}
  {d : Drawn} {filled : List Nat}

/-- The blocks with some numbers. -/
def numbered (taken : List Block) (numbers : List Nat) : List Block :=
  numbers.filterMap (taken[·]?)

/-- Some blocks of a ticket were taken, and of these some are initialized. -/
structure Drawing (taken : List Block) (free : Nat → List Nat) (held due : List Block)
    (e : Option Env) (filled : List Nat) (d : Drawn) : Prop where
  memory : e.map Env.mem = some d.heap.memory
  heapMeta : d.heap.heapMeta ≠ 0
  kept : ∃ blocks status due', Kept d.heap blocks status free (numbered taken filled ++ held) due' ∧
    (numbered taken filled ++ due').Perm (taken ++ due)
  drawn : d.taken = (taken.map Block.start).take d.taken.length
  rest : Chain d.heap.cells 0 d.ticket ((taken.map Block.start).drop d.taken.length)
  nodup : taken.Nodup

namespace Drawing

/-- The blocks of the ticket are among those of the heap. -/
theorem mem_blocks {due' : List Block}
    (hk : Kept h blocks status free (numbered taken filled ++ held) due')
    (hperm : (numbered taken filled ++ due').Perm (taken ++ due)) (hb : b ∈ taken) :
    b ∈ blocks := by
  rcases List.mem_append.1 (hperm.symm.subset (List.mem_append_left _ hb)) with hmem | hmem
  · exact (hk.live_of_held (List.mem_append_left _ hmem)).1
  · exact (hk.reserved_of_due hmem).1

/-- A block that is not initialized is reserved. -/
theorem mem_due {due' : List Block} (hnodup : taken.Nodup)
    (hperm : (numbered taken filled ++ due').Perm (taken ++ due)) {number : Nat}
    (hnumber : taken[number]? = some b) (hfresh : number ∉ filled) : b ∈ due' := by
  have hb : b ∈ taken := List.mem_of_getElem? hnumber
  rcases List.mem_append.1 (hperm.symm.subset (List.mem_append_left _ hb)) with hmem | hmem
  · obtain ⟨other, hother, hgot⟩ := List.mem_filterMap.1 hmem
    obtain ⟨hlt, -⟩ := List.getElem?_eq_some_iff.1 hgot
    have heq := (List.getElem?_inj hlt hnodup).1 (hgot.trans hnumber.symm)
    exact absurd (heq ▸ hother) hfresh
  · exact hmem

/-- The next block is taken. -/
theorem take (hd : Drawing taken free held due e filled d)
    (hmore : d.taken.length < taken.length) :
    ∃ d', d.serve e (taken.map Block.cls) .take = .ok d' ∧
      Drawing taken free held due e filled d' ∧ d'.taken.length = d.taken.length + 1 := by
  obtain ⟨blocks, status, due', hk, hperm⟩ := hd.kept
  have hin : ∀ at_ ∈ taken.map Block.start, heapOff ≤ at_ ∧ at_ < d.heap.bump := by
    intro at_ hat
    obtain ⟨b, hb, rfl⟩ := List.mem_map.1 hat
    exact hk.within (mem_blocks hk hperm hb) b.has_start
  have hlength : d.taken.length < (taken.map Block.start).length := by rwa [List.length_map]
  have htake := List.take_succ_eq_append_getElem hlength
  have hmem := List.getElem_mem hlength
  have hrest := hd.rest
  rw [List.drop_eq_getElem_cons hlength] at hrest
  have hticket : d.ticket = (taken.map Block.start)[d.taken.length] := hrest.1.1
  have hnext := hrest.tail
  rw [← hticket] at htake hmem hnext
  have hlater : ¬ (d.heap.cells d.ticket ≠ 0 ∧
      (d.heap.cells d.ticket < heapOff ∨ d.heap.bump ≤ d.heap.cells d.ticket)) := by
    rintro ⟨hne, hout⟩
    obtain ⟨after, hafter, -⟩ := hnext.uncons hne
    have := hin _ (List.mem_of_mem_drop (hafter ▸ List.mem_cons_self))
    omega
  have hcall : tbDeviceCorpusTicketTake e d.ticket d.heap =
      .ok (d.ticket, d.heap.cells d.ticket) := by
    have hrange := hin _ hmem
    unfold tbDeviceCorpusTicketTake
    rw [if_neg (by rw [hd.memory]; simp only [ne_eq, not_true, false_or]; omega)]
    exact if_neg hlater
  refine ⟨{ d with ticket := d.heap.cells d.ticket, taken := d.taken ++ [d.ticket] }, ?_, ?_, ?_⟩
  · unfold Drawn.serve
    rw [hcall]
  · refine { hd with drawn := ?_, rest := ?_ }
    · rw [List.length_append, List.length_singleton, htake, ← hd.drawn]
    · rw [List.length_append, List.length_singleton]
      exact hnext
  · rw [List.length_append, List.length_singleton]

/-- A block that was taken is initialized. -/
theorem prepare (hd : Drawing taken free held due e filled d) {number : Nat}
    (htaken : number < d.taken.length) (hfresh : number ∉ filled) :
    ∃ d', d.serve e (taken.map Block.cls) (.prepare number) = .ok d' ∧
      Drawing taken free held due e (number :: filled) d' ∧ d'.taken = d.taken := by
  obtain ⟨blocks, status, due', hk, hperm⟩ := hd.kept
  have hlength : number < taken.length := by
    have hdrawn := congrArg List.length hd.drawn
    rw [List.length_take, List.length_map] at hdrawn
    omega
  obtain ⟨b, hb⟩ : ∃ b, taken[number]? = some b := ⟨_, List.getElem?_eq_getElem hlength⟩
  have hloc : d.taken[number]? = some b.start := by
    rw [hd.drawn, List.getElem?_take_of_lt htaken, List.getElem?_map, hb]
    rfl
  have hcls : (taken.map Block.cls)[number]? = some b.cls := by
    rw [List.getElem?_map, hb]
    rfl
  have hdue := mem_due hd.nodup hperm hb hfresh
  obtain ⟨hmem, hstatus⟩ := hk.reserved_of_due hdue
  have hcall : tbDeviceCorpusInitializeReserved e b.start b.cls d.heap =
      (.ok (), d.heap.prepare b.start b.cls) := by
    have hwithin := hk.tiles.within hmem
    have hsize : b.start + 2 ^ b.cls ≤ d.heap.bump := hwithin.2
    have hpos := Nat.two_pow_pos b.cls
    have hfits := hk.fits b hmem
    have hpending := hk.pending b hmem hstatus
    unfold tbDeviceCorpusInitializeReserved
    rw [if_neg (by rw [hd.memory]; simp only [ne_eq, not_true, false_or, hd.heapMeta]; omega),
      if_neg (by omega), if_neg (by tauto)]
  refine ⟨{ d with heap := d.heap.prepare b.start b.cls }, ?_, ?_, rfl⟩
  · simp only [Drawn.serve, hloc, hcls, hcall]
  · have hnumbered : numbered taken (number :: filled) = b :: numbered taken filled :=
      List.filterMap_cons_some hb
    refine { hd with
      kept := ⟨blocks, Function.update status b.start .live, due'.erase b, ?_, ?_⟩
      rest := ?_ }
    · rw [hnumbered]
      exact hk.prepared hdue
    · rw [hnumbered]
      exact (List.perm_middle.symm.trans ((List.perm_cons_erase hdue).symm.append_left _)).trans
        hperm
    · -- The rest of the ticket goes through blocks that were not taken.
      refine hd.rest.congr fun at_ hat => if_neg ?_
      rw [← List.map_drop] at hat
      obtain ⟨c, hc, rfl⟩ := List.mem_map.1 hat
      have hcmem := mem_blocks hk hperm (List.mem_of_mem_drop hc)
      refine hk.not_has hmem hcmem (fun heq => ?_) c.has_start
      obtain rfl := hk.start_injective hcmem hmem heq
      have htake : c ∈ taken.take d.taken.length :=
        List.mem_of_getElem? ((List.getElem?_take_of_lt htaken).trans hb)
      exact List.disjoint_take_drop hd.nodup (Nat.le_refl _) htake hc

theorem run (hd : Drawing taken free held due e filled d) {draws : List Draw}
    (horder : InOrder taken.length d.taken.length filled draws) :
    ∃ d' filled', Drawn.run e (taken.map Block.cls) d draws = .ok d' ∧
      Drawing taken free held due e filled' d' ∧
      d'.taken.length = d.taken.length + draws.count .take := by
  induction draws generalizing d filled with
  | nil => exact ⟨d, filled, rfl, hd, rfl⟩
  | cons draw draws ih =>
    cases draw with
    | take =>
      obtain ⟨hmore, horder⟩ := horder
      obtain ⟨d₁, hserve, hd₁, hlength⟩ := hd.take hmore
      obtain ⟨d', filled', hrun, hd', hcount⟩ := ih hd₁ (hlength.symm ▸ horder)
      refine ⟨d', filled', ?_, hd', ?_⟩
      · simp only [Drawn.run, hserve, hrun]
      · rw [hcount, hlength, List.count_cons_self]
        omega
    | prepare number =>
      obtain ⟨htaken, hfresh, horder⟩ := horder
      obtain ⟨d₁, hserve, hd₁, hsame⟩ := hd.prepare htaken hfresh
      obtain ⟨d', filled', hrun, hd', hcount⟩ := ih hd₁ (hsame.symm ▸ horder)
      refine ⟨d', filled', ?_, hd', ?_⟩
      · simp only [Drawn.run, hserve, hrun]
      · rw [hcount, hsame, List.count_cons_of_ne (by simp)]

end Drawing

/-- The ticket of a reservation, before anything is taken. -/
theorem Reserved.drawing {classes : List Nat} {ticket : Nat}
    (hr : Reserved h₀ free held due classes taken ticket h)
    (hmemory : e.map Env.mem = some h.memory) (hmeta : h.heapMeta ≠ 0) :
    Drawing taken (fun cls => (free cls).drop (classes.count cls)) held due e []
      ⟨h, ticket, []⟩ := by
  obtain ⟨blocks, status, hk⟩ := hr.kept
  exact {
    memory := hmemory
    heapMeta := hmeta
    kept := ⟨blocks, status, _, hk, (List.reverse_perm taken).append_right due⟩
    drawn := rfl
    rest := hr.ticket
    nodup := List.nodup_reverse.1 (List.nodup_append.1 hk.due_nodup).1 }

/-- The blocks of a bundle have no cell in common. -/
theorem Reserved.apart {classes : List Nat} {ticket : Nat}
    (hr : Reserved h₀ free held due classes taken ticket h) :
    taken.Pairwise fun b c => ∀ loc, b.Has loc → ¬ c.Has loc := by
  obtain ⟨blocks, status, hk⟩ := hr.kept
  have hmem : ∀ b ∈ taken, b ∈ blocks := fun b hb =>
    (hk.reserved_of_due (List.mem_append_left _ (List.mem_reverse.2 hb))).1
  have hnodup : taken.Nodup := List.nodup_reverse.1 (List.nodup_append.1 hk.due_nodup).1
  refine hnodup.imp_of_mem fun hb hc hne loc hbloc hcloc => hne ?_
  exact hk.unique (hmem _ hb) (hmem _ hc) hbloc hcloc

/-- A bundle fails without an effect; or its blocks are reserved, those of the lists first, and the
ticket gives them in the order of the request, however their initialization is put between. -/
theorem bundle_reserved (hk : Kept h blocks status free held due)
    {fidArity : Nat → Except String UInt32} {firstCls : Nat} {tail : BundleTail}
    {r : Except String Nat}
    (hcall : tbDeviceCorpusReserveBundle fidArity firstCls tail e h = (r, h')) :
    (∀ message, r = .error message → h' = h) ∧
      ∀ ticket, r = .ok ticket → ∃ classes taken,
        List.Forall₂ (fun index cls => tail.countedClass fidArity index = .ok cls)
          (List.range tail.tailCount.toNat) classes ∧
        Reserved h free held due (firstCls :: classes) taken ticket h' ∧
        (taken.Pairwise fun b c => ∀ loc, b.Has loc → ¬ c.Has loc) ∧
        ∀ draws, InOrder taken.length 0 [] draws → ∃ d filled,
          Drawn.run e (firstCls :: classes) ⟨h', ticket, []⟩ draws = .ok d ∧
          d.taken = (taken.map Block.start).take (draws.count .take) ∧
          (draws.count .take = taken.length → d.ticket = 0) ∧
          Drawing taken (fun cls => (free cls).drop ((firstCls :: classes).count cls)) held due e
            filled d := by
  rcases reserveBundle_cases hk hcall with ⟨message, rfl, rfl⟩ |
    ⟨ticket, classes, taken, rfl, hmemory, hmeta, hclasses, hr⟩
  · exact ⟨fun _ _ => rfl, fun ticket hok => by cases hok⟩
  · refine ⟨fun message herror => ?_, fun ticket' hok => ?_⟩
    · cases herror
    cases hok
    refine ⟨classes, taken, hclasses, hr, hr.apart, fun draws horder => ?_⟩
    have hd := hr.drawing (hr.same.2.1 ▸ hmemory) (hr.same.2.2 ▸ hmeta)
    obtain ⟨d, filled, hrun, hd', hcount⟩ := hd.run horder
    rw [hr.of_class] at hrun
    have hlength : d.taken.length = draws.count .take := by simpa using hcount
    refine ⟨d, filled, hrun, hlength ▸ hd'.drawn, fun hall => ?_, hd'⟩
    have hrest := hd'.rest
    rw [hlength, hall, List.drop_of_length_le (by rw [List.length_map])] at hrest
    exact hrest.1

/-- A block was given back, and a request of two blocks of its class gets it, and a fresh one.  Each
is initialized as soon as it is taken, and then the ticket is at its end. -/
theorem bundle_reserved_again :
    ∃ start h h' free classes taken d, startHeap 8 8 64 = .ok start ∧
      h = (Holding.run ⟨8⟩ ⟨start, []⟩ [.alloc 1 true, .free 1 1]).heap ∧
      tbDeviceCorpusReserveBundle (fun _ => .error "") 1 ⟨1, none, 1⟩ (some ⟨8⟩) h = (.ok 1, h') ∧
      h'.bump = 5 ∧ Reserved h free [] [] (1 :: classes) taken 1 h' ∧
      Drawn.run (some ⟨8⟩) (1 :: classes) ⟨h', 1, []⟩ [.take, .prepare 0, .take, .prepare 1] =
        .ok d ∧
      d.taken = taken.map Block.start ∧ d.ticket = 0 := by
  have hsound : Holding.Sound ⟨_, []⟩ := ⟨_, _, _, @kept_startHeap _ 8 8 64 rfl⟩
  obtain ⟨blocks, status, free, hk⟩ := hsound.run ⟨8⟩ [.alloc 1 true, .free 1 1]
  obtain ⟨classes, taken, hclasses, hr, -, hdraws⟩ := (bundle_reserved hk (e := some ⟨8⟩)
    (Prod.mk.eta (p := tbDeviceCorpusReserveBundle (fun _ => .error "") 1 ⟨1, none, 1⟩ (some ⟨8⟩)
      _)).symm).2 1 rfl
  have hone : classes.length = 1 := hclasses.length_eq.symm
  have htwo : taken.length = 2 := by
    have hlength := congrArg List.length hr.of_class
    rwa [List.length_map, List.length_cons, hone] at hlength
  obtain ⟨d, filled, hrun, htaken, hend, -⟩ := hdraws [.take, .prepare 0, .take, .prepare 1] (by
    rw [htwo]
    simp [InOrder])
  have hcount : [Draw.take, .prepare 0, .take, .prepare 1].count .take = taken.length := by
    rw [htwo]
    rfl
  rw [hcount, List.take_of_length_le (by rw [List.length_map])] at htaken
  exact ⟨_, _, _, free, classes, taken, d, rfl, rfl, rfl, rfl, hr, hrun, htaken, hend hcount⟩

end TeamyBend.Runtime.BlockHeap
