/-
# The loader visits each file once

**The invariant** (`Holds`): what is in the book are the files that were seen, each after those that
it imports; the files that are being loaded are those of the chain of imports, and none of them is
in the book.  A visit keeps it, and finds its file in the book; or there is a chain of imports that
is refused, or a text that the parser refuses.
-/
import TeamyBend.Syntax.ModuleGraph

namespace TeamyBend.Syntax.ModuleLoader

open Lexer (ParseError)

variable {Path File Parser Declaration : Type} {host : Host Path File Parser Declaration}
  {files : Files host} {root : Path × List Char} {executable : Bool} {start : Parser}

/-! ## 1. The invariant -/

/-- A file that was seen, with its namespace. -/
def Module.seen (files : Files host) : Module Path → Option (File × List Char)
  | .bundled _ => none
  | .file path ns _ => some (files.fileOf path, ns)

/-- The modules in the book, with what each of them added. -/
structure Parts (files : Files host) (root : Path × List Char) (executable : Bool) (start : Parser)
    (above : List (Path × List Char)) (parts : List (Module Path × List Declaration))
    (l : Loader File Parser Declaration) : Prop where
  active : l.active = above.map (files.fileOf ·.1)
  seen : l.seen = ((parts.map Prod.fst).filterMap (Module.seen files)).reverse
  same : l.executable = executable
  ordered : Ordered files root executable (parts.map Prod.fst)
  book : l.book = parts.flatMap Prod.snd
  parsed : Parses files start parts l.parser
  apart : ∀ path ns above', .file path ns above' ∈ parts.map Prod.fst →
    files.fileOf path ∉ l.active

/-- The state of the loader, where a chain of imports is being loaded. -/
structure Holds (files : Files host) (root : Path × List Char) (executable : Bool) (start : Parser)
    (above : List (Path × List Char)) (parts : List (Module Path × List Declaration))
    (l : Loader File Parser Declaration) : Prop extends
    Parts files root executable start above parts l where
  base_found : l.base = true → BaseFound executable (parts.map Prod.fst)
  base_missing : l.base = false → ∀ effects, .bundled effects ∉ parts.map Prod.fst

variable {above : List (Path × List Char)} {parts more : List (Module Path × List Declaration)}
  {l l' : Loader File Parser Declaration} {path : Path} {ns : List Char}
  {modules modules' : List (Module Path)}

theorem Found.append (h : Found files modules path ns) :
    Found files (modules ++ modules') path ns := by
  obtain ⟨path', above', hmem, heq⟩ := h
  exact ⟨path', above', List.mem_append_left _ hmem, heq⟩

theorem BaseFound.append (h : BaseFound executable modules) :
    BaseFound executable (modules ++ modules') :=
  ⟨List.mem_append_left _ h.1, fun he => List.mem_append_left _ (h.2 he)⟩

/-- A file in the book was reached by a chain of imports. -/
theorem Ordered.chain (h : Ordered files root executable modules) {above : List (Path × List Char)}
    (hmem : .file path ns above ∈ modules) : Chain files root ((path, ns) :: above) := by
  induction h with
  | nil => cases hmem
  | concat _ hfollows ih =>
    rcases List.mem_append.1 hmem with hmem | hmem
    · exact ih hmem
    · obtain rfl := List.mem_singleton.1 hmem
      exact hfollows.1

namespace Parts

theorem mem_seen (h : Parts files root executable start above parts l) {file : File} :
    (file, ns) ∈ l.seen ↔
      ∃ path above', .file path ns above' ∈ parts.map Prod.fst ∧ files.fileOf path = file := by
  rw [h.seen, List.mem_reverse, List.mem_filterMap]
  constructor
  · rintro ⟨m, hm, hseen⟩
    cases m with
    | bundled effects => cases hseen
    | file path ns' above' =>
      cases hseen
      exact ⟨path, above', hm, rfl⟩
  · rintro ⟨path, above', hm, rfl⟩
    exact ⟨_, hm, rfl⟩

theorem found_of_lookup [DecidableEq File] (h : Parts files root executable start above parts l)
    (hlookup : l.seen.lookup (files.fileOf path) = some ns) :
    Found files (parts.map Prod.fst) path ns := by
  obtain ⟨before, after, hseen, -⟩ := List.lookup_eq_some_iff.1 hlookup
  exact h.mem_seen.1 (hseen ▸ List.mem_append_right _ List.mem_cons_self)

/-- A file that was not seen is not in the book. -/
theorem fresh_of_lookup [DecidableEq File] (h : Parts files root executable start above parts l)
    (hlookup : l.seen.lookup (files.fileOf path) = none) {path' : Path} {ns' : List Char}
    {above' : List (Path × List Char)} (hmem : .file path' ns' above' ∈ parts.map Prod.fst) :
    files.fileOf path' ≠ files.fileOf path := by
  intro heq
  have hseen := h.mem_seen.2 ⟨path', above', hmem, heq⟩
  have := List.lookup_eq_none_iff.1 hlookup _ hseen
  simp at this

/-- A text of the Base is added. -/
theorem bundled (h : Parts files root executable start above parts l) {effects : Bool}
    {declarations : List Declaration} {parser : Parser}
    (hfresh : Module.bundled effects ∉ parts.map Prod.fst)
    (hparsed : host.parse (Module.input files (.bundled effects)) l.parser =
      .ok (declarations, parser)) :
    Parts files root executable start above (parts ++ [(.bundled effects, declarations)])
      { l with book := l.book ++ declarations, parser } where
  active := h.active
  seen := by
    rw [List.map_append, List.filterMap_append, List.reverse_append]
    exact h.seen
  same := h.same
  ordered := by
    rw [List.map_append]
    exact h.ordered.concat hfresh
  book := by simp [h.book]
  parsed := h.parsed.concat hparsed
  apart := fun path ns above' hmem => by
    rw [List.map_append, List.mem_append] at hmem
    rcases hmem with hmem | hmem
    · exact h.apart path ns above' hmem
    · simp at hmem

/-- A file is added, and is no longer being loaded. -/
theorem loaded [DecidableEq File]
    (h : Parts files root executable start ((path, ns) :: above) parts l)
    {declarations : List Declaration} {parser : Parser}
    (hactive : files.fileOf path ∉ above.map (files.fileOf ·.1))
    (hfollows : Follows files root executable (parts.map Prod.fst) (.file path ns above))
    (hparsed : host.parse (files.input path ns) l.parser = .ok (declarations, parser)) :
    Parts files root executable start above (parts ++ [(.file path ns above, declarations)])
      { l with
        book := l.book ++ declarations, parser
        active := l.active.erase (files.fileOf path)
        seen := (files.fileOf path, ns) :: l.seen } := by
  have herase : l.active.erase (files.fileOf path) = above.map (files.fileOf ·.1) := by
    rw [h.active, List.map_cons, List.erase_cons_head]
  exact {
    active := herase
    seen := by
      rw [List.map_append, List.filterMap_append, List.reverse_append, ← h.seen]
      rfl
    same := h.same
    ordered := by
      rw [List.map_append]
      exact h.ordered.concat hfollows
    book := by simp [h.book]
    parsed := h.parsed.concat hparsed
    apart := fun path' ns' above' hmem => by
      rw [List.map_append, List.mem_append] at hmem
      rcases hmem with hmem | hmem
      · exact fun hactive => h.apart path' ns' above' hmem (List.mem_of_mem_erase hactive)
      · cases (List.mem_singleton.1 hmem : Module.file path' ns' above' = .file path ns above)
        exact herase ▸ hactive }

end Parts

/-! ## 2. The Base -/

/-- A text that the parser refuses. -/
theorem Parts.unparsed (h : Parts files root executable start above parts l) {m : Module Path}
    (hfollows : Follows files root executable (parts.map Prod.fst) m) {error : ParseError}
    (herror : host.parse (m.input files) l.parser = .error error) :
    Fails files root executable start (.parse error) :=
  ⟨nofun, .inr ⟨parts, l.parser, m, error, h.ordered, hfollows, h.parsed, herror, rfl⟩⟩

theorem parseInto_ok {input : ParseInput File} {declarations : List Declaration} {parser : Parser}
    (h : host.parse input l.parser = .ok (declarations, parser)) :
    parseInto host input l = .ok { l with book := l.book ++ declarations, parser } := by
  unfold parseInto
  rw [h]

theorem parseInto_error {input : ParseInput File} {error : ParseError}
    (h : host.parse input l.parser = .error error) :
    parseInto host input l = .error (.parse error) := by
  unfold parseInto
  rw [h]

/-- The Base is loaded once, unless the parser refuses it. -/
theorem Holds.embeddedBase (h : Holds files root executable start above parts l)
    (hbase : l.base = false) :
    (∃ l' more, embeddedBase host { l with base := true } = .ok l' ∧
      Holds files root executable start above (parts ++ more) l' ∧
      BaseFound executable ((parts ++ more).map Prod.fst)) ∨
    ∃ failure, embeddedBase host { l with base := true } = .error failure ∧
      Fails files root executable start failure := by
  have hmissing := h.base_missing hbase
  have hstart : Parts files root executable start above parts { l with base := true } :=
    ⟨h.active, h.seen, h.same, h.ordered, h.book, h.parsed, h.apart⟩
  unfold ModuleLoader.embeddedBase
  cases hparse : host.parse (baseInput host) l.parser with
  | error error =>
    have hinto : parseInto host (baseInput host) { l with base := true } =
        .error (.parse error) := parseInto_error hparse
    rw [hinto]
    exact .inr ⟨_, rfl, hstart.unparsed (m := .bundled false) (hmissing false) hparse⟩
  | ok out =>
    obtain ⟨declarations, parser⟩ := out
    have hfirst := hstart.bundled (hmissing false) hparse
    have hinto : parseInto host (baseInput host) { l with base := true } =
        .ok { l with base := true, book := l.book ++ declarations, parser } := parseInto_ok hparse
    rw [hinto]
    dsimp only
    by_cases hexecutable : l.executable = true
    · have hmissing' : Module.bundled true ∉
          (parts ++ [(Module.bundled false, declarations)]).map Prod.fst := by
        simpa using hmissing true
      rw [if_pos hexecutable]
      cases hparse' : host.parse (effectsInput host) parser with
      | error error =>
        have hinto' : parseInto host (effectsInput host)
            { l with base := true, book := l.book ++ declarations, parser } =
              .error (.parse error) := parseInto_error hparse'
        rw [hinto']
        exact .inr ⟨_, rfl, hfirst.unparsed (m := .bundled true) hmissing' hparse'⟩
      | ok out =>
        obtain ⟨effects, parser'⟩ := out
        have hsecond := hfirst.bundled hmissing' hparse'
        have hinto' : parseInto host (effectsInput host)
            { l with base := true, book := l.book ++ declarations, parser } = .ok { l with
              base := true, book := l.book ++ declarations ++ effects, parser := parser' } :=
          parseInto_ok hparse'
        rw [hinto']
        have hfound : BaseFound executable ((parts ++ [(Module.bundled false, declarations)] ++
            [(Module.bundled true, effects)]).map Prod.fst) := ⟨by simp, by simp⟩
        rw [List.append_assoc] at hsecond hfound
        exact .inl ⟨_, _, rfl,
          { hsecond with base_found := fun _ => hfound, base_missing := by simp }, hfound⟩
    · have hfound : BaseFound executable
          ((parts ++ [(Module.bundled false, declarations)]).map Prod.fst) :=
        ⟨by simp, fun heffects => absurd (h.same.trans heffects) hexecutable⟩
      rw [if_neg hexecutable]
      exact .inl ⟨_, _, rfl,
        { hfirst with base_found := fun _ => hfound, base_missing := by simp }, hfound⟩

/-! ## 3. Visits -/

/-- A visit that returns finds its file in the book; one that fails has a reason to. -/
def Visited (files : Files host) (root : Path × List Char) (executable : Bool) (start : Parser)
    (above : List (Path × List Char)) (parts : List (Module Path × List Declaration))
    (path : Path) (ns : List Char) (r : Except Failure (Loader File Parser Declaration)) : Prop :=
  (∀ l, r = .ok l → above.length < 64 ∧ ∃ more,
    Holds files root executable start above (parts ++ more) l ∧
      Found files ((parts ++ more).map Prod.fst) path ns) ∧
  ∀ failure, r = .error failure → Fails files root executable start failure

/-- What the lines of a file import is among the modules. -/
def Imported (files : Files host) (executable : Bool) (above : List (Path × List Char))
    (modules : List (Module Path)) (path : Path) (ns : List Char) (reads : List HeaderLine) :
    Prop :=
  (.base ∈ reads → BaseFound executable modules) ∧
    ∀ relative name, .file relative name ∈ reads → above.length < 64 ∧
      ∃ sub, importNamespace ns relative = some sub ∧
        Found files modules (host.sibling path relative) sub

theorem Imported.cons {read : HeaderLine} {reads : List HeaderLine}
    (h : Imported files executable above modules path ns reads)
    (hbase : read = .base → BaseFound executable modules)
    (hfile : ∀ relative name, read = .file relative name → above.length < 64 ∧
      ∃ sub, importNamespace ns relative = some sub ∧
        Found files modules (host.sibling path relative) sub) :
    Imported files executable above modules path ns (read :: reads) := by
  refine ⟨fun hmem => ?_, fun relative name hmem => ?_⟩
  · rcases List.mem_cons.1 hmem with heq | hmem
    · exact hbase heq.symm
    · exact h.1 hmem
  · rcases List.mem_cons.1 hmem with heq | hmem
    · exact hfile relative name heq.symm
    · exact h.2 relative name hmem

/-- The lines of a file are scanned: what they import is loaded, and the scan holds what is parsed
of them. -/
def Scanned (files : Files host) (root : Path × List Char) (executable : Bool) (start : Parser)
    (above : List (Path × List Char)) (parts : List (Module Path × List Declaration))
    (path : Path) (ns : List Char) (source : List (List Char)) (reads : List HeaderLine)
    (scan : Scan) (r : Except Failure (Scan × Loader File Parser Declaration)) : Prop :=
  (∀ scan' l', r = .ok (scan', l') → ∃ more,
    Holds files root executable start ((path, ns) :: above) (parts ++ more) l' ∧
      Imported files executable ((path, ns) :: above) ((parts ++ more).map Prod.fst) path ns
        reads ∧
      scan'.cleaned = scan.cleaned ++ unlines (keptLines source reads) ∧
      scan'.aliases = scan.aliases ++ aliasesOf ns reads) ∧
  ∀ failure, r = .error failure → Fails files root executable start failure

section Scans

variable {source : List (List Char)} {reads : List HeaderLine} {scan scan₁ : Scan}
  {r : Except Failure (Scan × Loader File Parser Declaration)}

theorem Scanned.failed {failure : Failure} (h : Fails files root executable start failure) :
    Scanned files root executable start above parts path ns source reads scan
      (.error failure) := by
  refine ⟨fun scan' l' hscan => (by cases hscan), fun failure' heq => ?_⟩
  cases heq
  exact h

/-- A line in front: what it imports is found in the modules that it added. -/
theorem Scanned.line {line : List Char} {read : HeaderLine}
    {more₁ : List (Module Path × List Declaration)}
    (h : Scanned files root executable start above (parts ++ more₁) path ns source reads scan₁ r)
    (hbase : read = .base → BaseFound executable ((parts ++ more₁).map Prod.fst))
    (hfile : ∀ relative name, read = .file relative name → ((path, ns) :: above).length < 64 ∧
      ∃ sub, importNamespace ns relative = some sub ∧
        Found files ((parts ++ more₁).map Prod.fst) (host.sibling path relative) sub)
    (hcleaned : scan₁.cleaned = scan.cleaned ++ read.kept line ++ ['\n'])
    (haliases : scan₁.aliases = scan.aliases ++ aliasesOf ns [read]) :
    Scanned files root executable start above parts path ns (line :: source) (read :: reads) scan
      r := by
  refine ⟨fun scan' l' hscan => ?_, h.2⟩
  obtain ⟨more, hholds, himported, hcleaned', haliases'⟩ := h.1 scan' l' hscan
  rw [hcleaned] at hcleaned'
  rw [haliases, List.append_assoc] at haliases'
  rw [List.append_assoc] at hholds himported
  refine ⟨more₁ ++ more, hholds, himported.cons (fun hread => ?_) (fun relative name hread => ?_),
    ?_, ?_⟩
  · rw [← List.append_assoc, List.map_append]
    exact (hbase hread).append
  · obtain ⟨hdepth, sub, hsub, hfound⟩ := hfile relative name hread
    refine ⟨hdepth, sub, hsub, ?_⟩
    rw [← List.append_assoc, List.map_append]
    exact hfound.append
  · rw [hcleaned']
    simp [keptLines, unlines]
  · rw [haliases', aliasesOf, aliasesOf, aliasesOf, ← List.filterMap_append,
      List.singleton_append]

end Scans

/-- **Every line is scanned**: by induction on the lines, where `visit` loads what is imported. -/
theorem scanLines_spec {visit : Path → List Char → Loader File Parser Declaration →
      Except Failure (Loader File Parser Declaration)}
    (hvisit : ∀ path' ns' l parts, Holds files root executable start ((path, ns) :: above) parts l →
      Chain files root ((path', ns') :: (path, ns) :: above) →
      Visited files root executable start ((path, ns) :: above) parts path' ns' (visit path' ns' l))
    (hchain : Chain files root ((path, ns) :: above)) (source : List (List Char)) (scan : Scan)
    (lineNumber : Nat)
    (hholds : Holds files root executable start ((path, ns) :: above) parts l)
    (hreads : ∀ read ∈ readLines scan.header (scan.aliases.map Prod.fst) source,
      read ∈ files.reads (files.fileOf path)) :
    Scanned files root executable start above parts path ns source
      (readLines scan.header (scan.aliases.map Prod.fst) source) scan
      (scanLines host visit path ns source lineNumber scan l) := by
  induction source generalizing scan lineNumber l parts with
  | nil =>
    refine ⟨fun scan' l' hok => ?_, fun failure herror => by cases herror⟩
    cases hok
    exact ⟨[], by simpa using hholds, ⟨by simp [readLines], by simp [readLines]⟩,
      by simp [readLines, keptLines, unlines], by simp [readLines, aliasesOf]⟩
  | cons line source ih =>
    have hread := hreads (readLine scan.header (scan.aliases.map Prod.fst) line)
      (by simp [readLines])
    unfold scanLines
    unfold readLines at hreads ⊢
    cases hline : readLine scan.header (scan.aliases.map Prod.fst) line with
    | refused message => exact absurd hline (files.wellFormed _ _ hread message)
    | parsed blank =>
      rw [hline] at hreads
      dsimp only at hreads ⊢
      have hrest := ih { scan with
        header := scan.header && blank, cleaned := scan.cleaned ++ line ++ ['\n'] }
        (lineNumber + 1) hholds fun read hmem => hreads read (List.mem_cons_of_mem _ hmem)
      rw [← List.append_nil parts] at hrest
      exact hrest.line (by simp) (by simp) rfl (by simp [aliasesOf])
    | base =>
      rw [hline] at hreads
      dsimp only at hreads ⊢
      have hcall : (∃ l₁ more₁,
          (if l.base then .ok l else embeddedBase host { l with base := true }) = .ok l₁ ∧
            Holds files root executable start ((path, ns) :: above) (parts ++ more₁) l₁ ∧
            BaseFound executable ((parts ++ more₁).map Prod.fst)) ∨
          ∃ failure, (if l.base then .ok l else embeddedBase host { l with base := true }) =
            .error failure ∧ Fails files root executable start failure := by
        cases hbase : l.base with
        | true =>
          exact .inl ⟨l, [], rfl, by simpa using hholds, by simpa using hholds.base_found hbase⟩
        | false => exact hholds.embeddedBase hbase
      rcases hcall with ⟨l₁, more₁, hbase, hholds₁, hfound⟩ | ⟨failure, hbase, hfails⟩
      · rw [hbase]
        dsimp only
        have hrest := ih scan.skip (lineNumber + 1) hholds₁
          fun read hmem => hreads read (List.mem_cons_of_mem _ hmem)
        exact hrest.line (fun _ => hfound) (by simp) (by simp [Scan.skip, HeaderLine.kept])
          (by simp [Scan.skip, aliasesOf])
      · rw [hbase]
        exact .failed hfails
    | file relative name =>
      rw [hline] at hread hreads
      dsimp only at hreads ⊢
      obtain ⟨sub, hsub⟩ := importNamespace_of_extension ns (extension_of_readLine hline)
      rw [hsub]
      dsimp only
      obtain ⟨hvisited, hfailed⟩ := hvisit _ sub l parts hholds (.import hchain hread hsub)
      cases hcall : visit (host.sibling path relative) sub l with
      | error failure => exact .failed (hfailed failure hcall)
      | ok l₁ =>
        obtain ⟨hdepth, more₁, hholds₁, hfound⟩ := hvisited l₁ hcall
        dsimp only
        have hrest := ih
          (Scan.skip { scan with aliases := scan.aliases ++ [(name, sub)] })
          (lineNumber + 1) hholds₁ fun read hmem =>
            hreads read (List.mem_cons_of_mem _ (by simpa [Scan.skip] using hmem))
        have hsame : readLines (Scan.skip { scan with
            aliases := scan.aliases ++ [(name, sub)] }).header
            ((Scan.skip { scan with
              aliases := scan.aliases ++ [(name, sub)] }).aliases.map Prod.fst) source =
            readLines scan.header (scan.aliases.map Prod.fst ++ [name]) source := by
          simp [Scan.skip]
        rw [hsame] at hrest
        refine hrest.line (by simp) (fun relative' name' heq => ?_)
          (by simp [Scan.skip, HeaderLine.kept]) (by simp [Scan.skip, aliasesOf, hsub])
        cases heq
        exact ⟨hdepth, sub, hsub, hfound⟩

/-- The lines of a file that is entered. -/
theorem Holds.enter (h : Holds files root executable start above parts l)
    (hfresh : ∀ path' ns' above', .file path' ns' above' ∈ parts.map Prod.fst →
      files.fileOf path' ≠ files.fileOf path) :
    Holds files root executable start ((path, ns) :: above) parts
      { l with active := files.fileOf path :: l.active } where
  active := by simp [h.active]
  seen := h.seen
  same := h.same
  ordered := h.ordered
  book := h.book
  parsed := h.parsed
  apart := fun path' ns' above' hmem hentered => by
    rcases List.mem_cons.1 hentered with heq | hentered
    · exact hfresh path' ns' above' hmem heq
    · exact h.apart path' ns' above' hmem hentered
  base_found := h.base_found
  base_missing := h.base_missing

/-- A visit of a file, by induction on the depth that is left. -/
theorem file_spec [DecidableEq File] {fuel : Nat} (hfuel : 65 ≤ fuel + above.length)
    (habove : above.length ≤ 64) (hchain : Chain files root ((path, ns) :: above))
    (h : Holds files root executable start above parts l) :
    Visited files root executable start above parts path ns (file host fuel path ns l) := by
  induction fuel generalizing path ns above parts l with
  | zero => omega
  | succ fuel ih =>
    have hlength : l.active.length = above.length := by rw [h.active, List.length_map]
    unfold file
    rw [files.canonical]
    dsimp only
    by_cases hdepth : 64 ≤ l.active.length
    · rw [if_pos hdepth]
      refine ⟨fun l' hok => (by cases hok), fun failure heq => ?_⟩
      cases heq
      exact ⟨nofun, .inl (.inr (.inr ⟨_, hchain, by simp; omega⟩))⟩
    rw [if_neg hdepth]
    by_cases hactive : files.fileOf path ∈ l.active
    · rw [if_pos hactive]
      refine ⟨fun l' hok => (by cases hok), fun failure heq => ?_⟩
      cases heq
      exact ⟨nofun, .inl (.inl ⟨path, ns, above, hchain, h.active ▸ hactive⟩)⟩
    rw [if_neg hactive]
    cases hlookup : l.seen.lookup (files.fileOf path) with
    | some prior =>
      obtain ⟨path', above', hmem, hsame⟩ := h.found_of_lookup hlookup
      dsimp only
      by_cases hprior : prior = ns
      · rw [if_neg (not_not.2 hprior)]
        refine ⟨fun l' hok => ?_, fun failure heq => (by cases heq)⟩
        cases hok
        refine ⟨by omega, [], by simpa using h, path', above', ?_, hsame⟩
        rw [List.append_nil]
        exact hprior ▸ hmem
      · rw [if_pos hprior]
        refine ⟨fun l' hok => (by cases hok), fun failure heq => ?_⟩
        cases heq
        exact ⟨nofun, .inl (.inr (.inl ⟨path', prior, above', path, ns, above,
          h.ordered.chain hmem, hchain, hsame, hprior⟩))⟩
    | none =>
      rw [files.readable]
      dsimp only
      have hfresh : ∀ path' ns' above', .file path' ns' above' ∈ parts.map Prod.fst →
          files.fileOf path' ≠ files.fileOf path := fun _ _ _ => h.fresh_of_lookup hlookup
      have hactive' : files.fileOf path ∉ above.map (files.fileOf ·.1) := h.active ▸ hactive
      obtain ⟨hscanned, hfailed⟩ := scanLines_spec
        (fun path' ns' l' parts' hholds hchain' =>
          ih (by simp; omega) (by simp; omega) hchain' hholds)
        hchain (lines (files.sourceOf (files.fileOf path))) ⟨true, [], []⟩ 0 (h.enter hfresh)
        fun read hread => hread
      cases hscan : scanLines host (file host fuel) path ns
          (lines (files.sourceOf (files.fileOf path))) 0 ⟨true, [], []⟩
          { l with active := files.fileOf path :: l.active } with
      | error failure =>
        refine ⟨fun l' hok => (by cases hok), fun failure' heq => ?_⟩
        cases heq
        exact hfailed failure hscan
      | ok out =>
        obtain ⟨scan, l₁⟩ := out
        obtain ⟨more, hholds, himported, hcleaned, haliases⟩ := hscanned scan l₁ hscan
        have hinput : (⟨scan.cleaned, host.display path, ns, scan.aliases,
            .local (files.fileOf path)⟩ : ParseInput File) = files.input path ns := by
          rw [hcleaned, haliases]
          simp [Files.input, Files.reads]
        have hfollows : Follows files root executable ((parts ++ more).map Prod.fst)
            (.file path ns above) :=
          ⟨hchain, by omega, fun path' ns' above'' hmem heq => hholds.apart path' ns' above'' hmem
            (by rw [hholds.active, List.map_cons, heq]; exact List.mem_cons_self),
            himported.1, himported.2⟩
        dsimp only
        rw [hinput]
        cases hparse : host.parse (files.input path ns) l₁.parser with
        | error error =>
          rw [parseInto_error hparse]
          refine ⟨fun l' hok => (by cases hok), fun failure heq => ?_⟩
          cases heq
          exact hholds.toParts.unparsed hfollows hparse
        | ok out =>
        obtain ⟨declarations, parser⟩ := out
        rw [parseInto_ok hparse]
        refine ⟨fun l' hok => ?_, fun failure heq => (by cases heq)⟩
        cases hok
        have hloaded := hholds.toParts.loaded hactive' hfollows hparse
        have hmap : (parts ++ more ++ [(Module.file path ns above, declarations)]).map Prod.fst =
            (parts ++ more).map Prod.fst ++ [.file path ns above] := List.map_append
        refine ⟨by omega, more ++ [(.file path ns above, declarations)], ?_, path, above, ?_, rfl⟩
        · rw [← List.append_assoc]
          exact { hloaded with
            base_found := fun hbase => hmap ▸ (hholds.base_found hbase).append
            base_missing := fun hbase effects hmem => by
              rw [hmap] at hmem
              rcases List.mem_append.1 hmem with hmem | hmem
              · exact hholds.base_missing hbase effects hmem
              · simp at hmem }
        · rw [← List.append_assoc, hmap]
          exact List.mem_append_right _ (List.mem_singleton.2 rfl)

end TeamyBend.Syntax.ModuleLoader
