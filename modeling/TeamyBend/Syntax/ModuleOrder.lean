/-
# The book of a program

A program that is loaded holds each of its files once, after those that it imports and in one
namespace, and a line of a file that is no import stands where it stood.  A chain of imports may
have more files than the loader enters at a time, if it leads to files that are in the book already
(`longChain_loads`).
-/
import TeamyBend.Syntax.ModuleTraversal

namespace TeamyBend.Syntax.ModuleLoader

open Lexer (ParseError)

variable {Path File Parser Declaration : Type} {host : Host Path File Parser Declaration}
  {files : Files host} {root : Path × List Char} {executable : Bool}
  {modules : List (Module Path)} {path path' : Path} {ns ns' : List Char}
  {above above' : List (Path × List Char)}

/-! ## 1. Lines -/

theorem splitFrom_not_mem {separator : Char} {part text : List Char} (h : separator ∉ text) :
    splitFrom separator part text = [part.reverse ++ text] := by
  induction text generalizing part with
  | nil => simp [splitFrom]
  | cons ch text ih =>
    obtain ⟨hch, htext⟩ := not_or.1 (mt List.mem_cons.2 h)
    rw [splitFrom, if_neg (Ne.symm hch), ih htext]
    simp

/-- The lines of a text that is made of lines. -/
theorem splitFrom_unlines {text : List (List Char)} (h : ∀ line ∈ text, '\n' ∉ line) :
    splitFrom '\n' [] (unlines text) = text ++ [[]] := by
  induction text with
  | nil => rfl
  | cons line text ih =>
    have hcons : unlines (line :: text) = line ++ '\n' :: unlines text := by simp [unlines]
    rw [hcons, splitFrom_append, splitFrom_not_mem (h line List.mem_cons_self),
      ih fun line' hline' => h line' (List.mem_cons_of_mem _ hline')]
    rfl

theorem not_mem_dropReturn {line : List Char} (h : '\n' ∉ line) : '\n' ∉ dropReturn line := by
  cases line with
  | nil => exact h
  | cons ch line =>
    rw [dropReturn]
    split
    · exact fun hmem => h (List.mem_cons_of_mem _ hmem)
    · exact h

theorem not_mem_linesFrom {line text : List Char} (h : '\n' ∉ line) :
    ∀ part ∈ linesFrom line text, '\n' ∉ part := by
  induction text generalizing line with
  | nil =>
    intro part hpart
    unfold linesFrom at hpart
    split at hpart
    · cases hpart
    · obtain rfl := List.mem_singleton.1 hpart
      simpa using h
  | cons ch text ih =>
    intro part hpart
    unfold linesFrom at hpart
    split at hpart
    · rcases List.mem_cons.1 hpart with rfl | hpart
      · simpa using not_mem_dropReturn h
      · exact ih List.not_mem_nil part hpart
    · rename_i hch
      refine ih (fun hmem => ?_) part hpart
      rcases List.mem_cons.1 hmem with heq | hmem
      · exact hch heq.symm
      · exact h hmem

/-- Where no line is refused, all are read. -/
theorem length_readLines {header : Bool} {aliases source : List (List Char)}
    (h : ∀ read ∈ readLines header aliases source, ∀ message, read ≠ .refused message) :
    (readLines header aliases source).length = source.length := by
  induction source generalizing header aliases with
  | nil => rfl
  | cons line source ih =>
    unfold readLines at h ⊢
    rw [List.length_cons, List.length_cons]
    have hrest := fun read hread => h read (List.mem_cons_of_mem _ hread)
    cases hline : readLine header aliases line with
    | refused message => exact absurd hline (h _ List.mem_cons_self message)
    | parsed blank =>
      rw [hline] at hrest
      exact congrArg _ (ih hrest)
    | base =>
      rw [hline] at hrest
      exact congrArg _ (ih hrest)
    | file relative name =>
      rw [hline] at hrest
      exact congrArg _ (ih hrest)

/-- A line stands where it stood, unless it is an import. -/
theorem line_kept (files : Files host) (path : Path) (ns : List Char) {i : Nat} {line : List Char}
    (hline : (lines (files.sourceOf (files.fileOf path)))[i]? = some line) :
    ∃ read, (files.reads (files.fileOf path))[i]? = some read ∧
      (splitFrom '\n' [] (files.input path ns).source)[i]? = some (read.kept line) := by
  have hlength := length_readLines (files.wellFormed (files.fileOf path))
  have hi := (List.getElem?_eq_some_iff.1 hline).1
  obtain ⟨read, hread⟩ : ∃ read, (files.reads (files.fileOf path))[i]? = some read :=
    ⟨_, List.getElem?_eq_getElem (hlength.symm ▸ hi)⟩
  have hkept : (keptLines (lines (files.sourceOf (files.fileOf path)))
      (files.reads (files.fileOf path)))[i]? = some (read.kept line) :=
    List.getElem?_zipWith_eq_some.2 ⟨line, read, hline, hread, rfl⟩
  have hlines : ∀ text ∈ keptLines (lines (files.sourceOf (files.fileOf path)))
      (files.reads (files.fileOf path)), '\n' ∉ text := by
    intro text htext
    obtain ⟨j, hj⟩ := List.mem_iff_getElem?.1 htext
    obtain ⟨line', read', hline', -, rfl⟩ := List.getElem?_zipWith_eq_some.1 hj
    have hnot := not_mem_linesFrom List.not_mem_nil line' (List.mem_of_getElem? hline')
    cases read' with
    | parsed blank => exact hnot
    | base => exact List.not_mem_nil
    | file relative name => exact List.not_mem_nil
    | refused message => exact List.not_mem_nil
  refine ⟨read, hread, ?_⟩
  rw [Files.input, splitFrom_unlines hlines]
  exact List.getElem?_append_left (List.getElem?_eq_some_iff.1 hkept).1 ▸ hkept

/-! ## 2. Modules that follow each other -/

/-- Where a file stands among the modules. -/
theorem Ordered.place (h : Ordered files root executable modules)
    (hfound : Found files modules path ns) :
    ∃ before path' above', before ++ [.file path' ns above'] <+: modules ∧
      files.fileOf path' = files.fileOf path ∧
      Ordered files root executable before ∧
      Follows files root executable before (.file path' ns above') := by
  induction h with
  | nil =>
    obtain ⟨path', above', hmem, -⟩ := hfound
    cases hmem
  | concat hordered hfollows ih =>
    obtain ⟨path', above', hmem, hsame⟩ := hfound
    rcases List.mem_append.1 hmem with hmem | hmem
    · obtain ⟨before, path', above', hprefix, hplace⟩ := ih ⟨path', above', hmem, hsame⟩
      exact ⟨before, path', above', hprefix.trans (List.prefix_append _ _), hplace⟩
    · obtain rfl := List.mem_singleton.1 hmem
      exact ⟨_, path', above', List.prefix_refl _, hsame, hordered, hfollows⟩

/-- A file is in the book in one namespace. -/
theorem Ordered.namespace_unique (h : Ordered files root executable modules)
    (hmem : .file path ns above ∈ modules) (hmem' : .file path' ns' above' ∈ modules)
    (hsame : files.fileOf path = files.fileOf path') : ns = ns' := by
  induction h with
  | nil => cases hmem
  | concat _ hfollows ih =>
    rcases List.mem_append.1 hmem with hm | hm <;>
      rcases List.mem_append.1 hmem' with hm' | hm'
    · exact ih hm hm'
    · obtain rfl := List.mem_singleton.1 hm'
      exact absurd hsame (hfollows.2.2.1 _ _ _ hm)
    · obtain rfl := List.mem_singleton.1 hm
      exact absurd hsame.symm (hfollows.2.2.1 _ _ _ hm')
    · obtain rfl := List.mem_singleton.1 hm
      cases List.mem_singleton.1 hm'
      rfl

/-! ## 3. Chains of imports -/

/-- What a file imports does not depend on the path that leads to it. -/
def Files.Coherent (files : Files host) : Prop :=
  ∀ path path' relative, files.fileOf path = files.fileOf path' →
    files.fileOf (host.sibling path relative) = files.fileOf (host.sibling path' relative)

/-- A chain of imports goes back in the book: what stands before its last file is none of its
files. -/
theorem Chain.place (hcoherent : files.Coherent) (hordered : Ordered files root executable modules)
    (hroot : Found files modules root.1 root.2) {chain : List (Path × List Char)}
    (h : Chain files root chain) :
    (chain.map (files.fileOf ·.1)).Nodup ∧ ∃ path ns rest before path' above',
      chain = (path, ns) :: rest ∧ before ++ [.file path' ns above'] <+: modules ∧
      files.fileOf path' = files.fileOf path ∧ Ordered files root executable before ∧
      Follows files root executable before (.file path' ns above') ∧
      ∀ file ∈ chain.map (files.fileOf ·.1), ∀ path ns above, .file path ns above ∈ before →
        files.fileOf path ≠ file := by
  induction h with
  | root =>
    obtain ⟨before, path', above', hprefix, hsame, hbefore, hfollows⟩ := hordered.place hroot
    refine ⟨by simp, root.1, root.2, [], before, path', above', rfl, hprefix, hsame, hbefore,
      hfollows, fun file hfile => ?_⟩
    obtain rfl := List.mem_singleton.1 hfile
    exact fun path ns above hmem heq => hfollows.2.2.1 path ns above hmem (heq.trans hsame.symm)
  | @«import» path ns relative name sub above hchain hread hsub ih =>
    obtain ⟨hnodup, path₀, ns₀, rest, before, path', above', heq, hprefix, hsame, hbefore, hfollows,
      hapart⟩ := ih
    cases heq
    obtain ⟨-, sub', hsub', hfound⟩ := hfollows.2.2.2.2 relative name (hsame ▸ hread)
    obtain rfl : sub' = sub := Option.some.inj (hsub'.symm.trans hsub)
    have hfound' : Found files before (host.sibling path relative) sub' := by
      obtain ⟨path₁, above₁, hmem, hsame₁⟩ := hfound
      exact ⟨path₁, above₁, hmem, hsame₁.trans (hcoherent _ _ relative hsame)⟩
    obtain ⟨before', path₁, above₁, hprefix', hsame', hbefore', hfollows'⟩ := hbefore.place hfound'
    have hmem : Module.file path₁ sub' above₁ ∈ before :=
      hprefix'.subset (List.mem_append_right _ List.mem_cons_self)
    refine ⟨List.nodup_cons.2 ⟨fun hold => hapart _ hold _ _ _ hmem hsame', hnodup⟩, _, _, _,
      before', path₁, above₁, rfl,
      hprefix'.trans ((List.prefix_append _ _).trans hprefix), hsame', hbefore', hfollows', ?_⟩
    intro file hfile
    rcases List.mem_cons.1 hfile with rfl | hfile
    · exact fun path ns above hmem' heq =>
        hfollows'.2.2.1 path ns above hmem' (heq.trans hsame'.symm)
    · exact fun path ns above hmem' => hapart file hfile path ns above
        (hprefix'.subset (List.mem_append_left _ hmem'))

/-! ## 4. The book -/

/-- The parts of the book that a program has: those of its modules, in order. -/
structure Traversed (files : Files host) (root : Path × List Char) (executable : Bool)
    (start : Parser) (parts : List (Module Path × List Declaration))
    (l : Loader File Parser Declaration) : Prop where
  book : l.book = parts.flatMap Prod.snd
  parsed : Parses files start parts l.parser
  ordered : Ordered files root executable (parts.map Prod.fst)
  found : Found files (parts.map Prod.fst) root.1 root.2

theorem holds_emptyLoader (files : Files host) (root : Path × List Char) (parser : Parser)
    (executable : Bool) :
    Holds files root executable parser [] [] (emptyLoader parser executable) where
  active := rfl
  seen := rfl
  same := rfl
  ordered := .nil
  book := rfl
  parsed := .nil
  apart := fun path ns above hmem => by cases hmem
  base_found := nofun
  base_missing := fun _ effects => by simp

/-- **A program is loaded in the order of its imports.**  A load that fails meets a chain of imports
that comes back to a file, that leads to it in a second namespace, or that has more than 64 files;
or the parser refuses a text where the loader comes to it, after those of the modules before it.
One that succeeds has each file in the book once, in one namespace and after those that it imports,
and the lines of a file stand where they stood.  If what a file imports does not depend on the path
that leads to it, then each chain of imports is in the book, and none comes back. -/
theorem file_traversal [DecidableEq File] (files : Files host) (root : Path × List Char)
    (parser : Parser) (executable : Bool) (fuel : Nat) :
    (∀ failure, file host (65 + fuel) root.1 root.2 (emptyLoader parser executable) =
      .error failure → failure ≠ .exhausted ∧
        (Refused files root ∨ Unparsed files root executable parser failure)) ∧
    ∀ l, file host (65 + fuel) root.1 root.2 (emptyLoader parser executable) = .ok l →
      ∃ parts, Traversed files root executable parser parts l ∧
        (∀ path ns above, .file path ns above ∈ parts.map Prod.fst →
          ∀ (i : Nat) (line : List Char),
            (lines (files.sourceOf (files.fileOf path)))[i]? = some line →
              ∃ read, (files.reads (files.fileOf path))[i]? = some read ∧
                (splitFrom '\n' [] (files.input path ns).source)[i]? = some (read.kept line)) ∧
        (files.Coherent →
          (∀ chain, Chain files root chain → (chain.map (files.fileOf ·.1)).Nodup) ∧
          (∀ path ns above, Chain files root ((path, ns) :: above) →
            Found files (parts.map Prod.fst) path ns) ∧
          ∀ path ns above path' ns' above', Chain files root ((path, ns) :: above) →
            Chain files root ((path', ns') :: above') →
            files.fileOf path = files.fileOf path' → ns = ns') := by
  obtain ⟨hok, herror⟩ : Visited files root executable parser [] [] root.1 root.2
      (file host (65 + fuel) root.1 root.2 (emptyLoader parser executable)) :=
    file_spec (by simp) (by simp) .root (holds_emptyLoader files root parser executable)
  refine ⟨herror, fun l hl => ?_⟩
  obtain ⟨-, parts, hholds, hfound⟩ := hok l hl
  rw [List.nil_append] at hholds hfound
  refine ⟨parts, ⟨hholds.book, hholds.parsed, hholds.ordered, hfound⟩,
    fun path ns above hmem i line => line_kept files path ns, fun hcoherent => ?_⟩
  have hplace := fun chain (hchain : Chain files root chain) =>
    hchain.place hcoherent hholds.ordered hfound
  have hall : ∀ path ns above, Chain files root ((path, ns) :: above) →
      Found files (parts.map Prod.fst) path ns := by
    intro path ns above hchain
    obtain ⟨-, path₀, ns₀, rest, before, path', above', heq, hprefix, hsame, -⟩ :=
      hplace _ hchain
    cases heq
    exact ⟨path', above', hprefix.subset (List.mem_append_right _ List.mem_cons_self), hsame⟩
  refine ⟨fun chain hchain => (hplace chain hchain).1, hall, ?_⟩
  intro path ns above path' ns' above' hchain hchain' heq
  obtain ⟨path₁, above₁, hmem₁, hsame₁⟩ := hall _ _ _ hchain
  obtain ⟨path₂, above₂, hmem₂, hsame₂⟩ := hall _ _ _ hchain'
  exact hholds.ordered.namespace_unique hmem₁ hmem₂ (hsame₁.trans (heq.trans hsame₂.symm))

/-! ## 5. A long chain that is loaded

The program has two chains of 32 files below its root.  The second one ends with an import of the
first file of the first one, which is in the book by then. -/

def digits (n : Nat) : List Char := [Char.ofNat (48 + n / 10), Char.ofNat (48 + n % 10)]

def bendPath (n : Nat) : List Char := digits n ++ '.' :: bend

def importLine (n : Nat) (name : Char) : List Char :=
  importWord ++ ' ' :: bendPath n ++ [' ', 'a', 's', ' ', name, '\n']

def detourSource (n : Nat) : List Char :=
  if n = 0 then importLine 1 'A' ++ importLine 33 'B'
  else if n = 32 ∨ 65 ≤ n then []
  else importLine (if n = 64 then 1 else n + 1) 'A'

/-- The number of a file, from its name. -/
def fileNumber : List Char → Nat
  | tens :: ones :: _ => 10 * (tens.toNat - 48) + (ones.toNat - 48)
  | _ => 65

def detourHost : Host (List Char) Nat Unit Unit where
  display path := String.ofList path
  debug ns := String.ofList ns
  sibling _ relative := relative
  canonicalize path := .ok (fileNumber path)
  readToString n := .ok (detourSource n)
  baseSource := []
  effectsSource := []
  parse _ _ := .ok ([], ())

def HeaderLine.accepted : HeaderLine → Bool
  | .refused _ => false
  | _ => true

theorem detour_wellFormed (n : Nat) :
    ∀ read ∈ readLines true [] (lines (detourSource n)), ∀ message, read ≠ .refused message := by
  by_cases hn : n < 65
  · have hall : ∀ n < 65, ∀ read ∈ readLines true [] (lines (detourSource n)),
        read.accepted = true := by decide +kernel
    intro read hread message hrefused
    have := hall n hn read hread
    rw [hrefused] at this
    cases this
  · have hsource : detourSource n = [] := by
      unfold detourSource
      rw [if_neg (by omega), if_pos (by omega)]
    rw [hsource]
    exact fun read hread => by cases hread

def detourFiles : Files detourHost where
  fileOf := fileNumber
  sourceOf := detourSource
  canonical _ := rfl
  readable _ := rfl
  wellFormed := detour_wellFormed

/-- The files of the long chain, from the root. -/
def detour (j : Nat) : Nat := if j = 0 then 0 else if j ≤ 32 then 32 + j else j - 32

/-- The long chain, up to one of its files. -/
def detourChain (j : Nat) : List (List Char × List Char) :=
  (List.range (j + 1)).reverse.map fun i => (bendPath (detour i), digits (detour i))

theorem detourChain_succ (j : Nat) :
    detourChain (j + 1) =
      (bendPath (detour (j + 1)), digits (detour (j + 1))) :: detourChain j := by
  simp [detourChain, List.range_succ]

theorem chain_detourChain {j : Nat} (hj : j < 65) :
    Chain detourFiles (bendPath 0, digits 0) (detourChain j) := by
  have himport : ∀ j < 64, (∃ name ∈ [['A'], ['B']],
      .file (bendPath (detour (j + 1))) name ∈
        readLines true [] (lines (detourSource (fileNumber (bendPath (detour j)))))) ∧
      importNamespace (digits (detour j)) (bendPath (detour (j + 1))) =
        some (digits (detour (j + 1))) := by decide +kernel
  induction j with
  | zero => exact .root
  | succ j ih =>
    obtain ⟨⟨name, -, hread⟩, hsub⟩ := himport j (by omega)
    have hchain := ih (by omega)
    rw [detourChain_succ]
    cases j with
    | zero => exact .import hchain hread hsub
    | succ j =>
      rw [detourChain_succ] at hchain ⊢
      exact .import hchain hread hsub

theorem detour_loads :
    ∃ l, file detourHost 65 (bendPath 0) (digits 0) (emptyLoader () false) = .ok l := by
  have hok : (file detourHost 65 (bendPath 0) (digits 0) (emptyLoader () false)).toBool = true := by
    decide +kernel
  cases hfile : file detourHost 65 (bendPath 0) (digits 0) (emptyLoader () false) with
  | ok l => exact ⟨l, rfl⟩
  | error failure =>
    rw [hfile] at hok
    cases hok

/-- A chain of 65 files does not refuse a program. -/
theorem longChain_loads :
    (∃ chain, Chain detourFiles (bendPath 0, digits 0) chain ∧ 64 < chain.length) ∧
      ∃ l, file detourHost 65 (bendPath 0) (digits 0) (emptyLoader () false) = .ok l :=
  ⟨⟨_, chain_detourChain (j := 64) (by omega), by simp [detourChain]⟩, detour_loads⟩

/-- What a file imports does not depend on its path, so the whole chain is in the book, and no file
is in it twice. -/
theorem file_traversal_detour :
    ∃ l parts, file detourHost 65 (bendPath 0) (digits 0) (emptyLoader () false) = .ok l ∧
      Traversed detourFiles (bendPath 0, digits 0) false () parts l ∧
      ((detourChain 64).map (detourFiles.fileOf ·.1)).Nodup ∧
      Found detourFiles (parts.map Prod.fst) (bendPath (detour 64)) (digits (detour 64)) := by
  obtain ⟨l, hl⟩ := detour_loads
  have hcoherent : detourFiles.Coherent := fun _ _ _ _ => rfl
  obtain ⟨parts, htraversed, -, hchains⟩ :=
    (file_traversal detourFiles (bendPath 0, digits 0) () false 0).2 l hl
  obtain ⟨hnodup, hfound, -⟩ := hchains hcoherent
  have hchain : Chain detourFiles (bendPath 0, digits 0) (detourChain 64) :=
    chain_detourChain (by omega)
  exact ⟨l, parts, hl, htraversed, hnodup _ hchain, hfound _ _ _ (detourChain_succ 63 ▸ hchain)⟩

end TeamyBend.Syntax.ModuleLoader
