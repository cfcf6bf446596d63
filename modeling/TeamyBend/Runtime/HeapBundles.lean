/-
# A bundle is reserved as a whole

The counting pass gives for each class how many blocks its list has, so the taking pass finds what
was counted: it takes that many from the list, and the others at the bump pointer, where there is
room for them.  A block that is on the ticket is on no list, so the links that are written into its
first cell meet no other block.
-/
import Mathlib.Algebra.Order.BigOperators.Group.List
import Mathlib.Data.List.Forall2
import Mathlib.Data.List.Induction
import TeamyBend.Runtime.HeapRuns
import TeamyBend.Runtime.HeapTickets

namespace TeamyBend.Runtime.BlockHeap

open Library (Tiles Chain Path sum_map_change)

variable {e : Env} {h h' h₀ : Heap} {blocks : List Block} {status : Nat → Status}
  {free : Nat → List Nat} {held due taken : List Block} {b c : Block} {loc cls : Nat}
  {fidArity : Nat → Except String UInt32} {firstCls : Nat} {tail : BundleTail}

/-! ## 1. What is counted -/

/-- The cells of blocks of some classes. -/
def words (classes : List Nat) : Nat := (classes.map (2 ^ ·)).sum

/-- The cells that are not on the lists. -/
def freshWords (free : Nat → List Nat) (classes : List Nat) : Nat :=
  ((List.range nclsAll).map fun cls => (classes.count cls - (free cls).length) * 2 ^ cls).sum

/-- One more block is fresh if the list of its class is used up. -/
theorem freshWords_concat (free : Nat → List Nat) (classes : List Nat) (hcls : cls < nclsAll) :
    freshWords free (classes ++ [cls]) = freshWords free classes +
      if classes.count cls < (free cls).length then 0 else 2 ^ cls := by
  have hchange := sum_map_change
    (f := fun c => ((classes ++ [cls]).count c - (free c).length) * 2 ^ c)
    (g := fun c => (classes.count c - (free c).length) * 2 ^ c) List.nodup_range
    (List.mem_range.2 hcls) fun c _ hne => by
      have hcount : [cls].count c = 0 := List.count_eq_zero_of_not_mem (by simpa using hne)
      rw [List.count_append, hcount, Nat.add_zero]
  have hone : (classes ++ [cls]).count cls = classes.count cls + 1 := by simp
  rw [hone] at hchange
  unfold freshWords
  split
  · rw [show classes.count cls + 1 - (free cls).length = 0 by omega,
      show classes.count cls - (free cls).length = 0 by omega] at hchange
    omega
  · rw [show classes.count cls + 1 - (free cls).length =
      classes.count cls - (free cls).length + 1 by omega, Nat.add_mul] at hchange
    omega

theorem freshWords_mono (free : Nat → List Nat) (classes classes' : List Nat) :
    freshWords free classes ≤ freshWords free (classes ++ classes') := by
  refine List.sum_le_sum fun cls _ => Nat.mul_le_mul_right _ ?_
  rw [List.count_append]
  omega

theorem freshWords_nil (free : Nat → List Nat) : freshWords free [] = 0 := by
  simp [freshWords]

theorem words_concat (classes : List Nat) (cls : Nat) :
    words (classes ++ [cls]) = words classes + 2 ^ cls := by
  simp [words]

theorem freshWords_le_words (free : Nat → List Nat) {classes : List Nat}
    (hfits : ∀ cls ∈ classes, cls < nclsAll) : freshWords free classes ≤ words classes := by
  induction classes using List.reverseRecOn with
  | nil => simp [freshWords_nil]
  | append_singleton classes cls ih =>
    have hrest := ih fun c hc => hfits c (List.mem_append_left _ hc)
    have hsize := Nat.two_pow_pos cls
    rw [freshWords_concat free classes (hfits cls (by simp)), words_concat]
    split <;> omega

theorem words_le {classes : List Nat} (hfits : ∀ cls ∈ classes, cls < nclsAll) :
    words classes ≤ classes.length * 2 ^ 31 := by
  induction classes with
  | nil => simp [words]
  | cons cls classes ih =>
    have hrest := ih fun c hc => hfits c (List.mem_cons_of_mem _ hc)
    have hcls : 2 ^ cls ≤ 2 ^ 31 :=
      Nat.pow_le_pow_right (by omega) (Nat.le_of_lt_succ (hfits cls List.mem_cons_self))
    simp only [words, List.map_cons, List.sum_cons, List.length_cons] at hrest ⊢
    omega

/-- What the counting of the request gives. -/
theorem countTail_ok {indices : List Nat} {requested requested' : Nat → Nat} {total total' : Nat}
    (hok : countTail fidArity tail indices requested total = .ok (requested', total')) :
    ∃ classes, List.Forall₂ (fun index cls => tail.countedClass fidArity index = .ok cls)
        indices classes ∧
      (∀ cls ∈ classes, cls < nclsAll) ∧
      (∀ cls, requested' cls = requested cls + classes.count cls) ∧
      (total < 2 ^ 64 → total' = (total + words classes) % 2 ^ 64) := by
  induction indices generalizing requested total with
  | nil =>
    cases hok
    refine ⟨[], .nil, by simp, by simp, fun hlt => ?_⟩
    simpa [words] using (Nat.mod_eq_of_lt hlt).symm
  | cons index indices ih =>
    unfold countTail at hok
    split at hok
    · cases hok
    · rename_i cls hclass
      split at hok
      · cases hok
      · rename_i hvalid
        simp only [not_or, Nat.not_le] at hvalid
        obtain ⟨classes, hclasses, hfits, hcount, htotal⟩ := ih hok
        refine ⟨cls :: classes, .cons hclass hclasses, ?_, fun c => ?_, fun _ => ?_⟩
        · intro c hc
          rcases List.mem_cons.1 hc with rfl | hc
          · exact hvalid.1
          · exact hfits c hc
        · rw [hcount, List.count_cons]
          by_cases heq : c = cls
          · subst heq
            rw [Function.update_self, beq_self_eq_true, if_pos rfl]
            omega
          · rw [Function.update_of_ne heq, if_neg (by simpa using Ne.symm heq)]
            rfl
        · rw [htotal (Nat.mod_lt _ (by decide)), Nat.mod_add_mod, words, words, List.map_cons,
            List.sum_cons, Nat.add_assoc]

/-- Every free block passes the checks, so a list gives what is wanted, as far as it goes. -/
theorem countReused_eq (hp : Partition h blocks status free) (hcls : cls < nclsAll) {l : List Nat}
    (hchain : Chain h.cells 0 loc l) (hmem : ∀ at_ ∈ l, at_ ∈ free cls) (wanted reused : Nat) :
    countReused h cls wanted loc reused = .ok (reused + min wanted l.length) := by
  induction wanted generalizing loc l reused with
  | zero => simp [countReused]
  | succ wanted ih =>
    unfold countReused
    by_cases hzero : loc = 0
    · subst hzero
      rw [if_pos rfl, hchain.eq_nil]
      rfl
    · obtain ⟨rest, rfl, hrest⟩ := hchain.uncons hzero
      have hin : ∀ at_ ∈ loc :: rest, heapOff ≤ at_ ∧ at_ + 2 ^ cls ≤ h.bump :=
        fun at_ hat => hp.tiles.within (hp.of_listed hcls (hmem at_ hat)).1
      obtain ⟨hblock, hfree⟩ := hp.of_listed hcls (hmem loc List.mem_cons_self)
      have hlo := hin loc List.mem_cons_self
      have hsize := Nat.two_pow_pos cls
      have hnext : ¬ (h.cells loc ≠ 0 ∧ (h.cells loc < heapOff ∨ h.bump ≤ h.cells loc)) := by
        rintro ⟨hne, hout⟩
        obtain ⟨after, rfl, -⟩ := hrest.uncons hne
        have := hin (h.cells loc) (List.mem_cons_of_mem _ List.mem_cons_self)
        omega
      have hvalid : ¬ (loc < heapOff ∨ h.bump ≤ loc ∨ h.bump - loc < 2 ^ cls ∨
          h.metadata loc ≠ tbMeta loc cls ||| tbMetaFree) := by
        rw [hp.marked _ hblock hfree]
        simp only [ne_eq, not_true, or_false]
        omega
      rw [if_neg hzero, if_neg hvalid]
      dsimp only
      rw [if_neg hnext, ih hrest (fun at_ hat => hmem at_ (List.mem_cons_of_mem _ hat)),
        List.length_cons]
      congr 1
      omega

theorem countLists_ok (hp : Partition h blocks status free) {requested reused reused' : Nat → Nat}
    {fresh fresh' : Nat} {classes : List Nat} (hfits : ∀ cls ∈ classes, cls < nclsAll)
    (hok : countLists h requested classes reused fresh = .ok (reused', fresh')) :
    (∀ cls, reused' cls =
      if cls ∈ classes then min (requested cls) (free cls).length else reused cls) ∧
    (fresh < 2 ^ 64 → fresh' = (fresh +
      (classes.map fun cls => (requested cls - (free cls).length) * 2 ^ cls).sum) % 2 ^ 64) := by
  induction classes generalizing reused fresh with
  | nil =>
    cases hok
    exact ⟨by simp, fun hlt => by simpa using (Nat.mod_eq_of_lt hlt).symm⟩
  | cons cls classes ih =>
    have hcls := hfits cls List.mem_cons_self
    unfold countLists at hok
    rw [countReused_eq hp hcls (hp.chains cls hcls) (fun _ hat => hat), Nat.zero_add] at hok
    obtain ⟨hreused, hfresh⟩ := ih (fun c hc => hfits c (List.mem_cons_of_mem _ hc)) hok
    refine ⟨fun c => ?_, fun _ => ?_⟩
    · rw [hreused]
      by_cases hmem : c ∈ classes
      · simp [hmem]
      · by_cases heq : c = cls
        · subst heq
          simp [hmem]
        · simp [hmem, heq]
    · rw [hfresh (Nat.mod_lt _ (by decide)), Nat.mod_add_mod, List.map_cons, List.sum_cons,
        Nat.add_assoc, show requested cls - min (requested cls) (free cls).length =
          requested cls - (free cls).length by omega]

/-! ## 2. What is taken -/

theorem account_account (h : Heap) (words words' n n' : Nat) :
    (h.account words n).account words' n' = h.account (words + words') (n + n') := by
  simp only [Heap.account, Nat.mod_add_mod, Nat.add_assoc]

theorem account_pop (h : Heap) (words n cls : Nat) :
    (h.account words n).pop cls = (h.pop cls).account words n := rfl

theorem account_grow (h : Heap) (words n cls : Nat) :
    (h.account words n).grow cls = (h.grow cls).account words n := rfl

theorem account_freeLists (h : Heap) (words n : Nat) :
    (h.account words n).freeLists = h.freeLists := rfl

theorem account_bump (h : Heap) (words n : Nat) : (h.account words n).bump = h.bump := rfl

theorem account_zero (hwords : h.liveWords < 2 ^ 64) (hblocks : h.liveBlocks < 2 ^ 64) :
    h.account 0 0 = h := by
  simp only [Heap.account, Nat.add_zero, Nat.mod_eq_of_lt hwords, Nat.mod_eq_of_lt hblocks]

/-- A cell of a reserved block is written. -/
theorem Kept.linked (hk : Kept h blocks status free held due) (hb : b ∈ due) (value : Nat) :
    Kept { h with cells := Function.update h.cells b.start value } blocks status free held due := by
  have hp : Partition { h with cells := Function.update h.cells b.start value } blocks status
      free := by
    refine hk.toPartition.changed rfl rfl rfl (fun _ _ _ _ _ hnames => hnames) (fun _ _ => rfl)
      fun c _ hfree => Function.update_of_ne (fun heq => ?_) _ _
    rw [heq, (hk.reserved_of_due hb).2] at hfree
    cases hfree
  exact { hp with
    live_held := hk.live_held
    reserved_due := hk.reserved_due
    liveWords := hk.liveWords
    liveBlocks := hk.liveBlocks }

theorem Kept.due_nodup (hk : Kept h blocks status free held due) : due.Nodup :=
  hk.reserved_due.nodup_iff.2 (hk.nodup.filter _)

/-- The blocks of a ticket, before its end is written. -/
def Linked (cells : Nat → Nat) (ticket : Ticket) (taken : List Block) : Prop :=
  (taken = [] ∧ ticket.previous = 0) ∨
    ∃ first last, taken = first ++ [last] ∧ ticket.previous = last.start ∧
      Path cells ticket.head (first.map Block.start) last.start

/-- A further block on the ticket. -/
theorem Linked.link {ticket : Ticket} {words n : Nat} (hlinked : Linked h.cells ticket taken)
    (hk : Kept (h.account words n) blocks status free held (b :: taken.reverse ++ due)) :
    Linked (ticket.link b.start h).2.cells (ticket.link b.start h).1 (taken ++ [b]) ∧
      Kept ((ticket.link b.start h).2.account words n) blocks status free held
        ((taken ++ [b]).reverse ++ due) := by
  rw [List.reverse_append, List.reverse_singleton, List.singleton_append]
  rcases hlinked with ⟨rfl, hprevious⟩ | ⟨first, last, rfl, hprevious, hpath⟩
  · unfold Ticket.link
    rw [if_pos hprevious]
    exact ⟨.inr ⟨[], b, rfl, rfl, rfl⟩, hk⟩
  · have hlast : last ∈ b :: (first ++ [last]).reverse ++ due := by simp
    have hne : ticket.previous ≠ 0 := by
      rw [hprevious]
      exact hk.start_ne (hk.reserved_of_due hlast).1
    unfold Ticket.link
    rw [if_neg hne, hprevious]
    refine ⟨.inr ⟨first ++ [last], b, rfl, rfl, ?_⟩, hk.linked hlast b.start⟩
    rw [List.map_append]
    refine (hpath.congr fun at_ hat => Function.update_of_ne ?_ _ _).append
      ⟨rfl, Function.update_self _ _ _⟩
    -- A block of the ticket does not occur twice.
    rintro rfl
    obtain ⟨c, hc, heq⟩ := List.mem_map.1 hat
    have hcmem : c ∈ b :: (first ++ [last]).reverse ++ due := by simp [hc]
    obtain rfl := hk.start_injective (hk.reserved_of_due hcmem).1 (hk.reserved_of_due hlast).1 heq
    have hnodup := hk.due_nodup
    simp [hc] at hnodup

/-- Blocks of the classes `done` are on the ticket, and not yet in the accounts. -/
structure Taking (h₀ : Heap) (free : Nat → List Nat) (held due : List Block) (done : List Nat)
    (taken : List Block) (ticket : Ticket) (h : Heap) : Prop where
  kept : ∃ blocks status, Kept (h.account (words done) done.length) blocks status
    (fun cls => (free cls).drop (done.count cls)) held (taken.reverse ++ due)
  of_class : taken.map Block.cls = done
  origin : ∀ b ∈ taken, b.start ∈ free b.cls ∨ h₀.bump ≤ b.start
  reused : ∀ cls, ∀ loc ∈ (free cls).take (done.count cls), ⟨loc, cls⟩ ∈ taken
  bump : h.bump = h₀.bump + freshWords free done
  same : h.capacity = h₀.capacity ∧ h.memory = h₀.memory ∧ h.heapMeta = h₀.heapMeta ∧
    h.liveWords = h₀.liveWords ∧ h.liveBlocks = h₀.liveBlocks
  linked : Linked h.cells ticket taken

variable {done : List Nat} {ticket : Ticket}

theorem count_concat (done : List Nat) (cls : Nat) :
    (done ++ [cls]).count cls = done.count cls + 1 := by simp

/-- The lists, after one more block of a class. -/
theorem drop_concat (free : Nat → List Nat) (done : List Nat) (cls : Nat) :
    (fun c => (free c).drop ((done ++ [cls]).count c)) =
      Function.update (fun c => (free c).drop (done.count c)) cls
        ((free cls).drop (done.count cls)).tail := by
  funext c
  by_cases heq : c = cls
  · subst heq
    rw [Function.update_self, count_concat, List.tail_drop]
  · have hcount : [cls].count c = 0 := List.count_eq_zero_of_not_mem (by simpa using heq)
    rw [Function.update_of_ne heq, List.count_append, hcount, Nat.add_zero]

/-- What linking a block leaves as it is. -/
theorem link_same (ticket : Ticket) (loc : Nat) (h : Heap) :
    (ticket.link loc h).2.bump = h.bump ∧ (ticket.link loc h).2.capacity = h.capacity ∧
      (ticket.link loc h).2.memory = h.memory ∧ (ticket.link loc h).2.heapMeta = h.heapMeta ∧
      (ticket.link loc h).2.liveWords = h.liveWords ∧
      (ticket.link loc h).2.liveBlocks = h.liveBlocks := by
  unfold Ticket.link
  split <;> exact ⟨rfl, rfl, rfl, rfl, rfl, rfl⟩

namespace Taking

/-- A block that was taken off its list, or is fresh, is put on the ticket. -/
theorem next (ht : Taking h₀ free held due done taken ticket h)
    (hkept : Kept (h'.account (words (done ++ [b.cls])) (done ++ [b.cls]).length) blocks status
      (fun c => (free c).drop ((done ++ [b.cls]).count c)) held (b :: taken.reverse ++ due))
    (hcells : h'.cells = h.cells) (hbump : h'.bump = h₀.bump + freshWords free (done ++ [b.cls]))
    (hsame : h'.capacity = h.capacity ∧ h'.memory = h.memory ∧ h'.heapMeta = h.heapMeta ∧
      h'.liveWords = h.liveWords ∧ h'.liveBlocks = h.liveBlocks)
    (horigin : b.start ∈ free b.cls ∨ h₀.bump ≤ b.start)
    (hreused : ∀ loc ∈ (free b.cls).take (done.count b.cls + 1),
      loc ∈ (free b.cls).take (done.count b.cls) ∨ loc = b.start) :
    Taking h₀ free held due (done ++ [b.cls]) (taken ++ [b]) (ticket.link b.start h').1
      (ticket.link b.start h').2 := by
  obtain ⟨hlinked, hkept⟩ := Linked.link (hcells ▸ ht.linked) hkept
  obtain ⟨hlbump, hlcapacity, hlmemory, hlmeta, hlwords, hlblocks⟩ := link_same ticket b.start h'
  obtain ⟨hcapacity, hmemory, hmeta, hwords, hblocks⟩ := hsame
  obtain ⟨hcapacity₀, hmemory₀, hmeta₀, hwords₀, hblocks₀⟩ := ht.same
  exact {
    kept := ⟨_, _, hkept⟩
    of_class := by
      rw [List.map_append, ht.of_class]
      rfl
    origin := fun c hc => by
      rcases List.mem_append.1 hc with hc | hc
      · exact ht.origin c hc
      · obtain rfl := List.mem_singleton.1 hc
        exact horigin
    reused := fun c loc hloc => by
      by_cases heq : c = b.cls
      · subst heq
        rw [count_concat] at hloc
        rcases hreused loc hloc with hold | rfl
        · exact List.mem_append_left _ (ht.reused _ loc hold)
        · exact List.mem_append_right _ (List.mem_singleton.2 rfl)
      · have hcount : [b.cls].count c = 0 := List.count_eq_zero_of_not_mem (by simpa using heq)
        rw [List.count_append, hcount, Nat.add_zero] at hloc
        exact List.mem_append_left _ (ht.reused c loc hloc)
    bump := hlbump.trans hbump
    same := ⟨hlcapacity.trans (hcapacity.trans hcapacity₀),
      hlmemory.trans (hmemory.trans hmemory₀), hlmeta.trans (hmeta.trans hmeta₀),
      hlwords.trans (hwords.trans hwords₀), hlblocks.trans (hblocks.trans hblocks₀)⟩
    linked := hlinked }

/-- The head of a list is taken. -/
theorem pop (ht : Taking h₀ free held due done taken ticket h) (hcls : cls < nclsAll)
    (hleft : done.count cls < (free cls).length) :
    h.freeLists cls ≠ 0 ∧
      Taking h₀ free held due (done ++ [cls]) (taken ++ [⟨h.freeLists cls, cls⟩])
        (ticket.link (h.freeLists cls) (h.pop cls)).1
        (ticket.link (h.freeLists cls) (h.pop cls)).2 := by
  obtain ⟨blocks, status, hk⟩ := ht.kept
  have hhead : h.freeLists cls ≠ 0 := by
    have hchain := hk.chains cls hcls
    intro hzero
    have hnil := Chain.eq_nil (hzero ▸ hchain)
    rw [List.drop_eq_nil_iff] at hnil
    omega
  obtain ⟨rest, hrest, -⟩ := hk.head hcls hhead
  rw [account_freeLists] at hrest
  have hkept := hk.popped hcls hhead
  rw [account_freeLists, account_pop, account_account, ← drop_concat, ← words_concat,
    show done.length + 1 = (done ++ [cls]).length by simp] at hkept
  refine ⟨hhead, ht.next (b := ⟨h.freeLists cls, cls⟩) hkept rfl ?_ ⟨rfl, rfl, rfl, rfl, rfl⟩
    (.inl ?_) fun loc hloc => ?_⟩
  · rw [freshWords_concat free done hcls, if_pos hleft, Nat.add_zero]
    exact ht.bump
  · refine List.mem_of_mem_drop (i := done.count cls) ?_
    exact hrest ▸ List.mem_cons_self
  · dsimp only at hloc ⊢
    rw [List.take_add, hrest] at hloc
    simpa using hloc

/-- The list of a class is used up, so a fresh block is taken. -/
theorem grow (ht : Taking h₀ free held due done taken ticket h) (hcls : cls < nclsAll)
    (hleft : (free cls).length ≤ done.count cls)
    (hroom : h₀.bump + freshWords free (done ++ [cls]) ≤ h₀.capacity) :
    Taking h₀ free held due (done ++ [cls]) (taken ++ [⟨h.bump, cls⟩])
      (ticket.link h.bump (h.grow cls)).1 (ticket.link h.bump (h.grow cls)).2 := by
  obtain ⟨blocks, status, hk⟩ := ht.kept
  have hfresh := freshWords_concat free done hcls
  rw [if_neg (by omega)] at hfresh
  have hbump := ht.bump
  have hcapacity := ht.same.1
  have hfits : h.bump + 2 ^ cls ≤ h.capacity := by omega
  have hdrop : (fun c => (free c).drop (done.count c)) =
      fun c => (free c).drop ((done ++ [cls]).count c) := by
    rw [drop_concat, List.drop_of_length_le hleft]
    refine (Function.update_eq_self_iff.2 ?_).symm
    exact (List.drop_of_length_le hleft).symm
  have hkept := hk.extended hcls hfits
  rw [account_bump, account_grow, account_account, hdrop, ← words_concat,
    show done.length + 1 = (done ++ [cls]).length by simp] at hkept
  refine ht.next (b := ⟨h.bump, cls⟩) hkept rfl ?_ ⟨rfl, rfl, rfl, rfl, rfl⟩ (.inr ?_)
    fun loc hloc => .inl ?_
  · have hgrow := hk.grow_eq hfits
    have hbumped : (h.grow cls).bump = h.bump + 2 ^ cls := congrArg Heap.bump hgrow
    rw [hbumped, hfresh]
    omega
  · show h₀.bump ≤ h.bump
    omega
  · dsimp only at hloc ⊢
    rw [List.take_of_length_le (by omega)] at hloc ⊢
    exact hloc

end Taking

/-- The taking pass finds what was counted. -/
theorem takeBlocks_ok {reused consumed : Nat → Nat} {indices todo : List Nat}
    (hclasses : List.Forall₂ (fun index cls => takenClass fidArity firstCls tail index = .ok cls)
      indices todo) (hfits : ∀ cls ∈ todo, cls < nclsAll)
    (hreused : ∀ cls < nclsAll,
      reused cls = min ((done ++ todo).count cls) (free cls).length)
    (hconsumed : ∀ cls < nclsAll, consumed cls = min (reused cls) (done.count cls))
    (hroom : h₀.bump + freshWords free (done ++ todo) ≤ h₀.capacity)
    (ht : Taking h₀ free held due done taken ticket h) :
    ∃ taken' ticket' h',
      takeBlocks fidArity firstCls tail reused indices consumed ticket h = (.ok ticket', h') ∧
        Taking h₀ free held due (done ++ todo) taken' ticket' h' := by
  induction hclasses generalizing done taken ticket h consumed with
  | nil => exact ⟨taken, ticket, h, rfl, by simpa using ht⟩
  | @cons index cls indices todo hclass _ ih =>
    have hcls := hfits cls List.mem_cons_self
    have hmore : (done ++ cls :: todo).count cls = done.count cls + (todo.count cls + 1) := by simp
    have hnext : done ++ cls :: todo = (done ++ [cls]) ++ todo := by simp
    have hrest : ∀ c ∈ todo, c < nclsAll := fun c hc => hfits c (List.mem_cons_of_mem _ hc)
    have hcount := hreused cls hcls
    have htaken := hconsumed cls hcls
    rw [hnext] at hreused hroom ⊢
    unfold takeBlocks
    rw [hclass]
    dsimp only
    by_cases hleft : consumed cls < reused cls
    · obtain ⟨hhead, hstep⟩ := ht.pop hcls (by omega)
      rw [if_pos hleft, if_neg hhead]
      refine ih hrest hreused (fun c hc => ?_) hroom hstep
      by_cases heq : c = cls
      · subst heq
        rw [Function.update_self, count_concat]
        omega
      · have hother : [cls].count c = 0 := List.count_eq_zero_of_not_mem (by simpa using heq)
        rw [Function.update_of_ne heq, List.count_append, hother, Nat.add_zero]
        exact hconsumed c hc
    · have hstep := ht.grow hcls (by omega)
        (Nat.le_trans (Nat.add_le_add_left (freshWords_mono free _ todo) _) hroom)
      rw [if_neg hleft]
      refine ih hrest hreused (fun c hc => ?_) hroom hstep
      by_cases heq : c = cls
      · subst heq
        rw [count_concat]
        omega
      · have hother : [cls].count c = 0 := List.count_eq_zero_of_not_mem (by simpa using heq)
        rw [List.count_append, hother, Nat.add_zero]
        exact hconsumed c hc

/-! ## 3. What is reserved -/

/-- Blocks of the classes of a request were reserved: those of the lists first, and the others
between the bump pointers.  The ticket leads through them in the order of the request. -/
structure Reserved (h₀ : Heap) (free : Nat → List Nat) (held due : List Block)
    (classes : List Nat) (taken : List Block) (ticket : Nat) (h : Heap) : Prop where
  kept : ∃ blocks status, Kept h blocks status (fun cls => (free cls).drop (classes.count cls))
    held (taken.reverse ++ due)
  of_class : taken.map Block.cls = classes
  origin : ∀ b ∈ taken, b.start ∈ free b.cls ∨ h₀.bump ≤ b.start
  reused : ∀ cls, ∀ loc ∈ (free cls).take (classes.count cls), ⟨loc, cls⟩ ∈ taken
  bump : h.bump = h₀.bump + freshWords free classes
  liveWords : h.liveWords = h₀.liveWords + words classes
  liveBlocks : h.liveBlocks = h₀.liveBlocks + classes.length
  same : h.capacity = h₀.capacity ∧ h.memory = h₀.memory ∧ h.heapMeta = h₀.heapMeta
  ticket : Chain h.cells 0 ticket (taken.map Block.start)

/-- The end of the ticket is written, and the accounts with it. -/
theorem Taking.close (ht : Taking h₀ free held due done taken ticket h) (hdone : done ≠ [])
    (hwords : h₀.liveWords + words done < 2 ^ 64)
    (hblocks : h₀.liveBlocks + done.length < 2 ^ 64) :
    Reserved h₀ free held due done taken ticket.head
      ((ticket.close h).account (words done) done.length) := by
  obtain ⟨blocks, status, hk⟩ := ht.kept
  obtain ⟨hcapacity, hmemory, hmeta, hlive, hcount⟩ := ht.same
  rcases ht.linked with ⟨rfl, -⟩ | ⟨first, last, rfl, hprevious, hpath⟩
  · exact absurd ht.of_class.symm hdone
  · have hmem : ∀ b ∈ first ++ [last], b ∈ (first ++ [last]).reverse ++ due := by
      intro b hb
      exact List.mem_append_left _ (List.mem_reverse.2 hb)
    have hlast := hmem last (by simp)
    have hstart : ∀ b ∈ first ++ [last], b.start ≠ 0 := fun b hb =>
      hk.start_ne (hk.reserved_of_due (hmem b hb)).1
    have hclose : ticket.close h = { h with cells := Function.update h.cells last.start 0 } := by
      rw [Ticket.close, hprevious, if_neg (hstart last (by simp))]
    rw [hclose]
    refine {
      kept := ⟨_, _, hk.linked hlast 0⟩
      of_class := ht.of_class
      origin := ht.origin
      reused := ht.reused
      bump := ht.bump
      liveWords := ?_
      liveBlocks := ?_
      same := ⟨hcapacity, hmemory, hmeta⟩
      ticket := ⟨?_, fun hzero => ?_⟩ }
    · show (h.liveWords + words done) % 2 ^ 64 = _
      rw [hlive, Nat.mod_eq_of_lt hwords]
    · show (h.liveBlocks + done.length) % 2 ^ 64 = _
      rw [hcount, Nat.mod_eq_of_lt hblocks]
    · rw [List.map_append]
      refine (hpath.congr fun at_ hat => Function.update_of_ne ?_ _ _).append
        ⟨rfl, Function.update_self _ _ _⟩
      rintro rfl
      obtain ⟨c, hc, heq⟩ := List.mem_map.1 hat
      have hcmem := hmem c (List.mem_append_left _ hc)
      obtain rfl := hk.start_injective (hk.reserved_of_due hcmem).1 (hk.reserved_of_due hlast).1 heq
      have hnodup := hk.due_nodup
      simp [hc] at hnodup
    · obtain ⟨b, hb, hzero⟩ := List.mem_map.1 hzero
      exact hstart b hb hzero

theorem close_bump (ticket : Ticket) (h : Heap) : (ticket.close h).bump = h.bump := by
  unfold Ticket.close
  split <;> rfl

/-- A block that was counted is taken with the same class. -/
theorem takenClass_succ {index : Nat} (hclass : tail.countedClass fidArity index = .ok cls) :
    takenClass fidArity firstCls tail (index + 1) = .ok cls := by
  unfold BundleTail.countedClass at hclass
  unfold takenClass
  rw [if_neg (Nat.succ_ne_zero index), Nat.add_sub_cancel]
  split at hclass
  · exact hclass
  · split at hclass
    · cases hclass
    · exact hclass

theorem takenClasses {count : Nat} {classes : List Nat}
    (hclasses : List.Forall₂ (fun index cls => tail.countedClass fidArity index = .ok cls)
      (List.range count) classes) :
    List.Forall₂ (fun index cls => takenClass fidArity firstCls tail index = .ok cls)
      (List.range (count + 1)) (firstCls :: classes) := by
  rw [List.range_succ_eq_map]
  refine .cons (if_pos rfl) ?_
  rw [List.forall₂_map_left_iff]
  exact hclasses.imp fun _ _ => takenClass_succ

/-- What was counted is committed. -/
theorem commitBundle_ok (hk : Kept h blocks status free held due) {reused : Nat → Nat}
    {count nextBump total : Nat} {classes : List Nat}
    (hclasses : List.Forall₂ (fun index cls => takenClass fidArity firstCls tail index = .ok cls)
      (List.range count) classes) (hsome : classes ≠ []) (hfits : ∀ cls ∈ classes, cls < nclsAll)
    (hreused : ∀ cls < nclsAll, reused cls = min (classes.count cls) (free cls).length)
    (hroom : h.bump + freshWords free classes ≤ h.capacity)
    (hnext : nextBump = h.bump + freshWords free classes) (htotal : total = words classes)
    (hwords : h.liveWords + words classes < 2 ^ 64)
    (hblocks : h.liveBlocks + classes.length < 2 ^ 64) :
    ∃ ticket h' taken,
      commitBundle fidArity firstCls tail reused count total nextBump h = (.ok ticket, h') ∧
        Reserved h free held due classes taken ticket h' := by
  have hstart : Taking h free held due [] [] ⟨0, 0⟩ h := {
    kept := by
      refine ⟨blocks, status, ?_⟩
      rw [show words [] = 0 from rfl, List.length_nil, account_zero (by omega) (by omega)]
      simpa using hk
    of_class := rfl
    origin := by simp
    reused := by simp
    bump := by rw [freshWords_nil, Nat.add_zero]
    same := ⟨rfl, rfl, rfl, rfl, rfl⟩
    linked := .inl ⟨rfl, rfl⟩ }
  have hconsumed : ∀ cls < nclsAll, 0 = min (reused cls) (([] : List Nat).count cls) := by simp
  obtain ⟨taken, ticket, h', htake, ht⟩ :=
    takeBlocks_ok hclasses hfits hreused hconsumed hroom hstart
  rw [List.nil_append] at ht
  have hcount : count = classes.length := by
    have := hclasses.length_eq
    rwa [List.length_range] at this
  refine ⟨ticket.head, _, taken, ?_, ht.close hsome hwords hblocks⟩
  unfold commitBundle
  rw [htake]
  dsimp only
  rw [if_neg (by rw [close_bump, hnext, ht.bump]; exact not_not.2 rfl), htotal, hcount]

/-- What the counting pass gives.  A request has at most `2 ^ 32` blocks, each of at most `2 ^ 31`
cells, so the sums fit their words. -/
theorem counted (hk : Kept h blocks status free held due) {requested reused : Nat → Nat}
    {total fresh : Nat} (hfirst : firstCls < nclsAll)
    (htail : countTail fidArity tail (List.range tail.tailCount.toNat)
      (Function.update (fun _ => 0) firstCls 1) (2 ^ firstCls) = .ok (requested, total))
    (hlists : countLists h requested (List.range nclsAll) (fun _ => 0) 0 = .ok (reused, fresh)) :
    ∃ classes, List.Forall₂ (fun index cls => tail.countedClass fidArity index = .ok cls)
        (List.range tail.tailCount.toNat) classes ∧
      (∀ cls ∈ firstCls :: classes, cls < nclsAll) ∧ total = words (firstCls :: classes) ∧
      fresh = freshWords free (firstCls :: classes) ∧
      ∀ cls < nclsAll, reused cls = min ((firstCls :: classes).count cls) (free cls).length := by
  obtain ⟨classes, hclasses, hfits, hrequested, htotal⟩ := countTail_ok htail
  have hall : ∀ cls ∈ firstCls :: classes, cls < nclsAll := by
    intro cls hcls
    rcases List.mem_cons.1 hcls with rfl | hcls
    · exact hfirst
    · exact hfits cls hcls
  have hcount : ∀ cls, requested cls = (firstCls :: classes).count cls := by
    intro cls
    rw [hrequested, List.count_cons]
    by_cases heq : cls = firstCls
    · subst heq
      rw [Function.update_self, beq_self_eq_true, if_pos rfl]
      omega
    · rw [Function.update_of_ne heq, if_neg (by simpa using Ne.symm heq)]
      omega
  obtain ⟨hreused, hfresh⟩ := countLists_ok hk.toPartition
    (fun cls hcls => List.mem_range.1 hcls) hlists
  have hlt : words (firstCls :: classes) < 2 ^ 64 := by
    have hlength := hclasses.length_eq
    have hmany := tail.tailCount.toNat_lt
    have hwords := words_le hall
    rw [List.length_range] at hlength
    rw [List.length_cons] at hwords
    omega
  refine ⟨classes, hclasses, hall, ?_, ?_, fun cls hcls => ?_⟩
  · have hsum : 2 ^ firstCls + words classes = words (firstCls :: classes) := by simp [words]
    rw [htotal (Nat.pow_lt_pow_right (by omega) (Nat.lt_trans hfirst (by decide))), hsum,
      Nat.mod_eq_of_lt hlt]
  · rw [hfresh (by omega), Nat.zero_add]
    simp only [hcount]
    exact Nat.mod_eq_of_lt (Nat.lt_of_le_of_lt (freshWords_le_words free hall) hlt)
  · rw [hreused, if_pos (List.mem_range.2 hcls), hcount]

/-- A bundle fails without an effect, or is reserved as it was requested. -/
theorem reserveBundle_cases (hk : Kept h blocks status free held due) {e : Option Env}
    {r : Except String Nat}
    (hcall : tbDeviceCorpusReserveBundle fidArity firstCls tail e h = (r, h')) :
    (∃ message, r = .error message ∧ h' = h) ∨
      ∃ ticket classes taken, r = .ok ticket ∧ e.map Env.mem = some h.memory ∧ h.heapMeta ≠ 0 ∧
        List.Forall₂ (fun index cls => tail.countedClass fidArity index = .ok cls)
          (List.range tail.tailCount.toNat) classes ∧
        Reserved h free held due (firstCls :: classes) taken ticket h' := by
  have hfailed : ∀ {message : String}, ((.error message, h) : Outcome Nat) = (r, h') →
      ∃ message, r = .error message ∧ h' = h := by
    intro message heq
    exact ⟨message, (Prod.mk.inj heq).1.symm, (Prod.mk.inj heq).2.symm⟩
  unfold tbDeviceCorpusReserveBundle at hcall
  dsimp only at hcall
  split at hcall
  · exact .inl (hfailed hcall)
  · rename_i hvalid
    simp only [not_or, not_not, Nat.not_le] at hvalid
    obtain ⟨hmemory, hmeta, hfirst, -, -⟩ := hvalid
    split at hcall
    · exact .inl (hfailed hcall)
    · rename_i requested total htail
      split at hcall
      · exact .inl (hfailed hcall)
      · rename_i reused fresh hlists
        split at hcall
        · exact .inl (hfailed hcall)
        · rename_i hroom
          split at hcall
          · exact .inl (hfailed hcall)
          · rename_i haccounts
            simp only [not_or, Nat.not_lt] at hroom haccounts
            have hbounded := hk.bounded.2
            simp only [locMask] at hbounded
            obtain ⟨classes, hclasses, hfits, htotal, hfresh, hreused⟩ :=
              counted hk hfirst htail hlists
            have hlength : (firstCls :: classes).length = tail.tailCount.toNat + 1 := by
              rw [List.length_cons, ← hclasses.length_eq, List.length_range]
            have hnext : (h.bump + fresh) % 2 ^ 64 =
                h.bump + freshWords free (firstCls :: classes) := by
              rw [hfresh] at hroom ⊢
              exact Nat.mod_eq_of_lt (by omega)
            obtain ⟨ticket, h'', taken, hcommit, hreserved⟩ := commitBundle_ok hk
              (takenClasses hclasses) (List.cons_ne_nil _ _) hfits hreused (by omega) hnext htotal
              (by omega) (by omega)
            obtain ⟨hr, hheap⟩ := Prod.mk.inj (hcommit.symm.trans hcall)
            subst hr hheap
            exact .inr ⟨ticket, classes, taken, rfl, hmemory, hmeta, hclasses, hreserved⟩

end TeamyBend.Runtime.BlockHeap
