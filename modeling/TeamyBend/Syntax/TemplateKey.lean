/-
# Keys of template instances

`TemplateKey` in `parser.rs`: the text under which the parser remembers what it generated for
one list of template arguments.  `Ok(false)` and an error both end the traversal, so here both
are an `Except.error`, told apart by `Stop`.

`spell` is the text a term gets when no limit is in the way, `nodeDepths` where its nodes are, and
`writes_term` says that the traversal writes the text, or stops at a variable no binder binds, or at
a limit that the text or the nodes go beyond.
-/
import TeamyBend.Kernel.Comparing
import TeamyBend.Library.Delimited

namespace TeamyBend.Syntax

open Kernel Library

/-! ## 1. The source -/

/-- `impl Display for Quant`. -/
def quantText : Quant → String
  | .None => "-"
  | .Lone => ""
  | .Many => "+"

/-- `struct TemplateKey`. -/
structure TemplateKey where
  text : String := ""
  nodes : Nat := 0

namespace TemplateKey

/-- What ends a traversal: `Ok(false)` at a variable no binder binds, or an error. -/
inductive Stop where
  | unbound
  | refused (message : String)
  deriving DecidableEq

/-- `MAX_TEMPLATE_KEY_BYTES`. -/
def maxTemplateKeyBytes : Nat := 2048

/-- The error of `write`. -/
def tooLong : String := "template argument key exceeds the resource limit of 2048 bytes"

/-- The error of `term`. -/
def tooDeep : String := "template argument structure exceeds the key resource limit"

/-- One part of a traversal. -/
abbrev Writer := TemplateKey → Except Stop TemplateKey

/-- `TemplateKey::write`. -/
def write (text : String) : Writer := fun self =>
  if self.text.utf8ByteSize + text.utf8ByteSize > maxTemplateKeyBytes then
    .error (.refused tooLong)
  else .ok { self with text := self.text ++ text }

/-- `TemplateKey::name`. -/
def name (tag name : String) : Writer := fun self => do
  let self ← write tag self
  let self ← write (toString name.utf8ByteSize) self
  let self ← write ":" self
  write name self

/-- What `term` does around every node. -/
def node (depth : Nat) (inner : Writer) : Writer := fun self =>
  if depth > 128 ∨ self.nodes ≥ 4096 then .error (.refused tooDeep)
  else do
    let self ← write "(" { self with nodes := self.nodes + 1 }
    let self ← inner self
    write ")" self

/-- What `terms` does around its loop. -/
def listed (inner : Writer) : Writer := fun self => do
  let self ← write "[" self
  let self ← inner self
  write "]" self

/-- The names of an exclusion list. -/
def excludedNames : List String → Writer
  | [] => .ok
  | excluded :: rest => fun self => do
    let self ← name "x" excluded self
    excludedNames rest self

mutual

/-- `TemplateKey::term`. -/
def term (scope : List Nat) (depth : Nat) : Term → Writer
  | .Var _ id => node depth fun self =>
    match position scope id with
    | none => .error .unbound
    | some index => name "v" (toString index) self
  | .Ref n => node depth (name "r" n)
  | .GpuRef n => node depth (name "r!" n)
  | .Typ grade => node depth fun self => do
    let self ← write "t" self
    term scope (depth + 1) grade self
  | .Qnt => node depth (write "q")
  | .Qua quant => node depth (name "g" (quantText quant))
  | .Min a b => node depth fun self => do
    let self ← write "m" self
    let self ← term scope (depth + 1) a self
    term scope (depth + 1) b self
  | .App a b => node depth fun self => do
    let self ← write "a" self
    let self ← term scope (depth + 1) a self
    term scope (depth + 1) b self
  | .Ann a b => node depth fun self => do
    let self ← write "n" self
    let self ← term scope (depth + 1) a self
    term scope (depth + 1) b self
  | .All quant _ id domain body => node depth fun self => do
    let self ← name "f" (quantText quant) self
    let self ← term scope (depth + 1) domain self
    term (scope ++ [id]) (depth + 1) body self
  | .Lam _ id body => node depth fun self => do
    let self ← write "l" self
    term (scope ++ [id]) (depth + 1) body self
  | .Adt n args excluded => node depth fun self => do
    let self ← name "d" n self
    let self ← listed (eachTerm scope (depth + 1) args) self
    excludedNames excluded self
  | .Ctr n args => node depth fun self => do
    let self ← name "c" n self
    listed (eachTerm scope (depth + 1) args) self
  | .Mat constructor arm fallback => node depth fun self => do
    let self ← name "b" constructor self
    let self ← term scope (depth + 1) arm self
    term scope (depth + 1) fallback self
  | .Efq => node depth (write "e")
  | .Eql left right ty => node depth fun self => do
    let self ← write "=" self
    let self ← term scope (depth + 1) left self
    let self ← term scope (depth + 1) right self
    term scope (depth + 1) ty self
  | .Rfl => node depth (write "p")
  | .Rwt evidence motive body => node depth fun self => do
    let self ← write "w" self
    let self ← term scope (depth + 1) evidence self
    let self ← term scope (depth + 1) motive self
    term scope (depth + 1) body self
  | .Hole n => node depth (name "h" n)
  | .Let bindings body => node depth fun self => do
    let self ← write "s[" self
    let self ← eachBinding scope (depth + 1) bindings self
    let self ← write "]" self
    term (scope ++ bindings.map (·.id)) (depth + 1) body self

/-- The loop of `TemplateKey::terms`. -/
def eachTerm (scope : List Nat) (depth : Nat) : List Term → Writer
  | [] => .ok
  | value :: values => fun self => do
    let self ← term scope depth value self
    eachTerm scope depth values self

/-- The loop over the bindings of a `let`. -/
def eachBinding (scope : List Nat) (depth : Nat) : List (LetBinding Term) → Writer
  | [] => .ok
  | ⟨quant, _, _, value⟩ :: bindings => fun self => do
    let self ← name "g" (quantText quant) self
    let self ← term scope depth value self
    eachBinding scope depth bindings self

end

/-- `TemplateKey::terms`. -/
def terms (values : List Term) (scope : List Nat) (depth : Nat) : Writer :=
  listed (eachTerm scope (depth + 1) values)

end TemplateKey

/-- `template_key`. -/
def templateKey (arguments : List Term) : Except String (Option String) :=
  match TemplateKey.terms arguments [] 0 {} with
  | .ok key => .ok (some key.text)
  | .error .unbound => .ok none
  | .error (.refused message) => .error message


/-! ## 2. The text of a term -/

/-- How a variable is spelled: by its position, or by its number where no binder binds it. -/
def indexText (scope : List Nat) (id : Nat) : String :=
  match position scope id with
  | none => "-" ++ toString id
  | some index => toString index

/-- The text of an exclusion list. -/
def spellExcluded (excluded : List String) : List Char :=
  excluded.flatMap fun name => 'x' :: named name

mutual

/-- The text of a term. -/
def spell (scope : List Nat) : Term → List Char
  | .Var _ id => '(' :: 'v' :: (named (indexText scope id) ++ [')'])
  | .Ref name => '(' :: 'r' :: (named name ++ [')'])
  | .GpuRef name => '(' :: 'r' :: '!' :: (named name ++ [')'])
  | .Typ grade => '(' :: 't' :: (spell scope grade ++ [')'])
  | .Qnt => ['(', 'q', ')']
  | .Qua quant => '(' :: 'g' :: (named (quantText quant) ++ [')'])
  | .Min a b => '(' :: 'm' :: (spell scope a ++ spell scope b ++ [')'])
  | .All quant _ id domain body =>
    '(' :: 'f' :: (named (quantText quant) ++ spell scope domain ++ spell (scope ++ [id]) body ++
      [')'])
  | .Lam _ id body => '(' :: 'l' :: (spell (scope ++ [id]) body ++ [')'])
  | .App f x => '(' :: 'a' :: (spell scope f ++ spell scope x ++ [')'])
  | .Adt name args excluded =>
    '(' :: 'd' :: (named name ++ '[' :: (spellArgs scope args ++ [']']) ++
      (spellExcluded excluded ++ [')']))
  | .Ctr name args => '(' :: 'c' :: (named name ++ '[' :: (spellArgs scope args ++ [']']) ++ [')'])
  | .Mat constructor arm fallback =>
    '(' :: 'b' :: (named constructor ++ spell scope arm ++ spell scope fallback ++ [')'])
  | .Efq => ['(', 'e', ')']
  | .Eql left right ty =>
    '(' :: '=' :: (spell scope left ++ spell scope right ++ spell scope ty ++ [')'])
  | .Rfl => ['(', 'p', ')']
  | .Rwt evidence motive body =>
    '(' :: 'w' :: (spell scope evidence ++ spell scope motive ++ spell scope body ++ [')'])
  | .Hole name => '(' :: 'h' :: (named name ++ [')'])
  | .Ann value ty => '(' :: 'n' :: (spell scope value ++ spell scope ty ++ [')'])
  | .Let bindings body =>
    '(' :: 's' :: '[' :: (spellBindings scope bindings ++ [']'] ++
      spell (scope ++ bindings.map (·.id)) body ++ [')'])

/-- The texts of an argument list. -/
def spellArgs (scope : List Nat) : List Term → List Char
  | [] => []
  | a :: args => spell scope a ++ spellArgs scope args

/-- The quantities and texts of the bindings of a `let`. -/
def spellBindings (scope : List Nat) : List (LetBinding Term) → List Char
  | [] => []
  | ⟨quant, _, _, value⟩ :: bindings =>
    'g' :: (named (quantText quant) ++ spell scope value) ++ spellBindings scope bindings

end

mutual

/-- The depths of the nodes of a term, in the order of the traversal. -/
def nodeDepths (depth : Nat) : Term → List Nat
  | .Var _ _ | .Ref _ | .GpuRef _ | .Qnt | .Qua _ | .Efq | .Rfl | .Hole _ => [depth]
  | .Typ grade => depth :: nodeDepths (depth + 1) grade
  | .Min a b | .App a b | .Ann a b =>
    depth :: (nodeDepths (depth + 1) a ++ nodeDepths (depth + 1) b)
  | .All _ _ _ domain body =>
    depth :: (nodeDepths (depth + 1) domain ++ nodeDepths (depth + 1) body)
  | .Lam _ _ body => depth :: nodeDepths (depth + 1) body
  | .Adt _ args _ => depth :: argDepths (depth + 1) args
  | .Ctr _ args => depth :: argDepths (depth + 1) args
  | .Mat _ arm fallback =>
    depth :: (nodeDepths (depth + 1) arm ++ nodeDepths (depth + 1) fallback)
  | .Eql a b c | .Rwt a b c =>
    depth :: (nodeDepths (depth + 1) a ++ nodeDepths (depth + 1) b ++ nodeDepths (depth + 1) c)
  | .Let bindings body =>
    depth :: (bindingDepths (depth + 1) bindings ++ nodeDepths (depth + 1) body)

/-- The depths of the nodes of an argument list. -/
def argDepths (depth : Nat) : List Term → List Nat
  | [] => []
  | a :: args => nodeDepths depth a ++ argDepths depth args

/-- The depths of the nodes of the values of a `let`. -/
def bindingDepths (depth : Nat) : List (LetBinding Term) → List Nat
  | [] => []
  | ⟨_, _, _, value⟩ :: bindings => nodeDepths depth value ++ bindingDepths depth bindings

end

attribute [local simp] spell spellArgs spellBindings nodeDepths argDepths bindingDepths

theorem spellArgs_eq (scope : List Nat) (args : List Term) :
    spellArgs scope args = args.flatMap (spell scope) := by
  induction args with
  | nil => rfl
  | cons a args ih => simp [ih]

theorem spellBindings_eq (scope : List Nat) (bindings : List (LetBinding Term)) :
    spellBindings scope bindings =
      bindings.flatMap fun b => 'g' :: (named (quantText b.quant) ++ spell scope b.value) := by
  induction bindings with
  | nil => rfl
  | cons b bindings ih => simp [ih]

/-- Every text begins with a bracket. -/
theorem spell_head (scope : List Nat) (t : Term) : ∃ l, spell scope t = '(' :: t.letter :: l := by
  cases t <;> exact ⟨_, rfl⟩

/-! ## 3. What the source writes -/

/-- The bytes of a text. -/
def bytes (w : List Char) : Nat := (String.ofList w).utf8ByteSize

@[simp] theorem bytes_nil : bytes [] = 0 := rfl

theorem bytes_append (w v : List Char) : bytes (w ++ v) = bytes w + bytes v := by
  rw [bytes, String.ofList_append, String.utf8ByteSize_append, bytes, bytes]

theorem bytes_toList (text : String) : bytes text.toList = text.utf8ByteSize := by
  rw [bytes, String.ofList_toList]

namespace TemplateKey

/-- **Beyond a limit**: what is to be written behind a key is too long or has too many nodes, or a
node of it is too deep.  The error says which. -/
inductive Beyond (k : TemplateKey) (w : List Char) (ds : List Nat) : String → Prop
  | long (h : maxTemplateKeyBytes < k.text.utf8ByteSize + bytes w) : Beyond k w ds tooLong
  | deep (d : Nat) (hd : d ∈ ds) (h : 128 < d) : Beyond k w ds tooDeep
  | many (h : 4096 < k.nodes + ds.length) : Beyond k w ds tooDeep

/-- Neither the text nor the nodes of a key are beyond their limits. -/
structure Within (k : TemplateKey) : Prop where
  text : k.text.utf8ByteSize ≤ maxTemplateKeyBytes
  nodes : k.nodes ≤ 4096

/-- `w` has been written behind a key, at nodes of the depths `ds`. -/
structure Extends (k k' : TemplateKey) (w : List Char) (ds : List Nat) : Prop where
  text : k'.text.toList = k.text.toList ++ w
  nodes : k'.nodes = k.nodes + ds.length
  shallow : ∀ d ∈ ds, d ≤ 128
  within : k.Within → k'.Within

variable {k m k' : TemplateKey} {w v : List Char} {ds es : List Nat} {message : String}

theorem Beyond.left (h : Beyond k w ds message) : Beyond k (w ++ v) (ds ++ es) message := by
  cases h with
  | long h => exact .long (by rw [bytes_append]; omega)
  | deep d hd h => exact .deep d (List.mem_append_left es hd) h
  | many h => exact .many (by rw [List.length_append]; omega)

theorem Extends.bytes (h : Extends k k' w ds) :
    k'.text.utf8ByteSize = k.text.utf8ByteSize + Syntax.bytes w := by
  rw [← bytes_toList, h.text, bytes_append, bytes_toList]

/-- What goes beyond a limit behind a longer key does so behind the shorter one. -/
theorem Beyond.right (h : Beyond m v es message) (hm : Extends k m w ds) :
    Beyond k (w ++ v) (ds ++ es) message := by
  have hbytes := hm.bytes
  have hnodes := hm.nodes
  cases h with
  | long h => exact .long (by rw [bytes_append]; omega)
  | deep d hd h => exact .deep d (List.mem_append_right ds hd) h
  | many h => exact .many (by rw [List.length_append]; omega)

theorem Extends.trans (hw : Extends k m w ds) (hv : Extends m k' v es) :
    Extends k k' (w ++ v) (ds ++ es) where
  text := by rw [hv.text, hw.text, List.append_assoc]
  nodes := by rw [hv.nodes, hw.nodes, List.length_append, Nat.add_assoc]
  shallow d hd := (List.mem_append.mp hd).elim (hw.shallow d) (hv.shallow d)
  within h := hv.within (hw.within h)

/-- What has been written was not beyond a limit. -/
theorem Extends.not_beyond (h : Extends k k' w ds) (hk : k.Within) : ¬Beyond k w ds message := by
  have hbytes := h.bytes
  have hnodes := h.nodes
  obtain ⟨htext, hcount⟩ := h.within hk
  intro hbeyond
  cases hbeyond with
  | long hlong => omega
  | deep d hd hdeep =>
    have hshallow := h.shallow d hd
    omega
  | many hmany => omega

end TemplateKey

/-- **What a part of the traversal does**: it writes `w` at nodes of the depths `ds` and has met
bound variables only, or it stops at a variable that is not, or at a limit that is in the way. -/
structure Writes (act : TemplateKey.Writer) (w : List Char) (ds : List Nat) (C : Prop) :
    Prop where
  ok : ∀ k k', act k = .ok k' → C ∧ k.Extends k' w ds
  unbound : ∀ k, act k = .error .unbound → ¬C
  refused : ∀ k message, act k = .error (.refused message) → k.Beyond w ds message

namespace Writes

variable {f g : TemplateKey.Writer} {w v : List Char} {ds es : List Nat} {C D : Prop}

theorem nothing : Writes .ok [] [] True where
  ok k k' h := by
    cases h
    exact ⟨trivial, by simp, rfl, by simp, id⟩
  unbound k h := by cases h
  refused k message h := by cases h

theorem congr (h : Writes f w ds C) (hw : w = v) (hds : ds = es) (hC : C ↔ D) :
    Writes f v es D := by
  subst hw hds
  exact ⟨fun k k' hk => ⟨hC.mp (h.ok k k' hk).1, (h.ok k k' hk).2⟩,
    fun k hk hD => h.unbound k hk (hC.mpr hD), h.refused⟩

/-- One part after another. -/
theorem andThen (hf : Writes f w ds C) (hg : Writes g v es D) :
    Writes (fun k => f k >>= g) (w ++ v) (ds ++ es) (C ∧ D) where
  ok k k' h := by
    cases hk : f k with
    | error stop => simp [hk, bind, Except.bind] at h
    | ok m =>
      have hgm : g m = .ok k' := by simpa [hk, bind, Except.bind] using h
      obtain ⟨hC, hm⟩ := hf.ok k m hk
      obtain ⟨hD, hk'⟩ := hg.ok m k' hgm
      exact ⟨⟨hC, hD⟩, hm.trans hk'⟩
  unbound k h hCD := by
    cases hk : f k with
    | error stop =>
      have hstop : stop = .unbound := by simpa [hk, bind, Except.bind] using h
      exact hf.unbound k (hstop ▸ hk) hCD.1
    | ok m => exact hg.unbound m (by simpa [hk, bind, Except.bind] using h) hCD.2
  refused k message h := by
    cases hk : f k with
    | error stop =>
      have hstop : stop = .refused message := by simpa [hk, bind, Except.bind] using h
      exact (hf.refused k message (hstop ▸ hk)).left
    | ok m =>
      have hgm : g m = .error (.refused message) := by simpa [hk, bind, Except.bind] using h
      exact (hg.refused m message hgm).right (hf.ok k m hk).2

end Writes

namespace TemplateKey

theorem writes_write (text : String) : Writes (write text) text.toList [] True where
  ok k k' h := by
    unfold write at h
    split at h
    · cases h
    · rename_i hfits
      cases h
      refine ⟨trivial, String.toList_append, rfl, by simp, fun hk => ⟨?_, hk.nodes⟩⟩
      simpa [String.utf8ByteSize_append] using hfits
  unbound k h := by
    unfold write at h
    split at h <;> cases h
  refused k message h := by
    unfold write at h
    split at h
    · rename_i hlong
      cases h
      exact .long (by rwa [bytes_toList])
    · cases h

theorem writes_name (tag n : String) : Writes (name tag n) (tag.toList ++ named n) [] True :=
  ((writes_write tag).andThen ((writes_write _).andThen ((writes_write ":").andThen
    (writes_write n)))).congr (by simp [named, decimal]) rfl (by simp)

/-- The part around a node counts it, and refuses one that is too deep or one too many. -/
theorem writes_node {inner : Writer} {w : List Char} {ds : List Nat} {C : Prop}
    (h : Writes inner w ds C) (depth : Nat) :
    Writes (node depth inner) ('(' :: (w ++ [')'])) (depth :: ds) C := by
  have hinner : Writes (fun k => write "(" k >>= fun k => inner k >>= write ")")
      ('(' :: (w ++ [')'])) ds C :=
    ((writes_write "(").andThen (h.andThen (writes_write ")"))).congr (by simp) (by simp) (by simp)
  constructor
  · intro k k' hk
    unfold node at hk
    split at hk
    · cases hk
    · rename_i hfits
      obtain ⟨hC, htext, hnodes, hshallow, hwithin⟩ :=
        hinner.ok { k with nodes := k.nodes + 1 } k' hk
      refine ⟨hC, htext, ?_, ?_, fun hkey => hwithin ⟨hkey.text, ?_⟩⟩
      · rw [hnodes, List.length_cons, Nat.add_assoc, Nat.add_comm 1]
      · exact List.forall_mem_cons.mpr ⟨by omega, hshallow⟩
      · show k.nodes + 1 ≤ 4096
        omega
  · intro k hk
    unfold node at hk
    split at hk
    · cases hk
    · exact hinner.unbound { k with nodes := k.nodes + 1 } hk
  · intro k message hk
    unfold node at hk
    split at hk
    · rename_i hlimit
      cases hk
      rcases hlimit with hdeep | hmany
      · exact .deep depth List.mem_cons_self hdeep
      · exact .many (by rw [List.length_cons]; omega)
    · cases hinner.refused { k with nodes := k.nodes + 1 } message hk with
      | long h => exact .long h
      | deep d hd h => exact .deep d (List.mem_cons_of_mem depth hd) h
      | many h =>
        have hmany : 4096 < k.nodes + 1 + ds.length := h
        exact .many (by rw [List.length_cons]; omega)

theorem writes_listed {inner : Writer} {w : List Char} {ds : List Nat} {C : Prop}
    (h : Writes inner w ds C) : Writes (listed inner) ('[' :: (w ++ [']'])) ds C :=
  ((writes_write "[").andThen (h.andThen (writes_write "]"))).congr (by simp) (by simp) (by simp)

theorem writes_excludedNames (excluded : List String) :
    Writes (excludedNames excluded) (spellExcluded excluded) [] True := by
  induction excluded with
  | nil => exact .nothing
  | cons n rest ih =>
    exact ((writes_name "x" n).andThen ih).congr (by simp [spellExcluded]) rfl (by simp)

theorem writes_position (scope : List Nat) (id : Nat) :
    Writes (fun self => match position scope id with
      | none => .error .unbound
      | some index => name "v" (toString index) self)
      ('v' :: named (indexText scope id)) [] (id ∈ scope) := by
  cases hpos : position scope id with
  | none =>
    have hid := position_eq_none.mp hpos
    exact ⟨fun k k' h => (by cases h), fun k _ => hid, fun k message h => (by cases h)⟩
  | some index =>
    have hid : id ∈ scope := not_not.mp fun hmem => by simp [position_eq_none.mpr hmem] at hpos
    exact (writes_name "v" (toString index)).congr (by simp [indexText, hpos]) rfl
      (iff_of_true trivial hid)

theorem writes_eachTerm {scope : List Nat} {depth : Nat} {args : List Term}
    (h : ∀ a ∈ args,
      Writes (term scope depth a) (spell scope a) (nodeDepths depth a) (ClosedIn scope a)) :
    Writes (eachTerm scope depth args) (spellArgs scope args) (argDepths depth args)
      (∀ a ∈ args, ClosedIn scope a) := by
  induction args with
  | nil => exact Writes.nothing.congr rfl rfl (by simp)
  | cons a args ih =>
    have hrest := ih fun b hb => h b (List.mem_cons_of_mem _ hb)
    exact ((h a (by simp)).andThen hrest).congr rfl rfl (by simp)

theorem writes_eachBinding {scope : List Nat} {depth : Nat} {bindings : List (LetBinding Term)}
    (h : ∀ b ∈ bindings, Writes (term scope depth b.value) (spell scope b.value)
      (nodeDepths depth b.value) (ClosedIn scope b.value)) :
    Writes (eachBinding scope depth bindings) (spellBindings scope bindings)
      (bindingDepths depth bindings) (∀ b ∈ bindings, ClosedIn scope b.value) := by
  induction bindings with
  | nil => exact Writes.nothing.congr rfl rfl (by simp)
  | cons b bindings ih =>
    have hrest := ih fun c hc => h c (List.mem_cons_of_mem _ hc)
    exact ((writes_name "g" _).andThen ((h b (by simp)).andThen hrest)).congr (by simp)
      (by simp) (by simp)

/-- **The traversal of a term** writes its text at its nodes, or stops where it says. -/
theorem writes_term (scope : List Nat) (depth : Nat) (t : Term) :
    Writes (term scope depth t) (spell scope t) (nodeDepths depth t) (ClosedIn scope t) := by
  induction t generalizing scope depth with
  | Var n id =>
    exact (writes_node (writes_position scope id) depth).congr rfl rfl closedIn_var.symm
  | Ref n =>
    exact (writes_node (writes_name "r" n) depth).congr (by simp) rfl
      (closedIn_leaf (by rintro _ ⟨⟩))
  | GpuRef n =>
    exact (writes_node (writes_name "r!" n) depth).congr (by simp) rfl
      (closedIn_leaf (by rintro _ ⟨⟩))
  | Typ g ih =>
    exact (writes_node ((writes_write "t").andThen (ih scope (depth + 1))) depth).congr
      (by simp) (by simp) (by simp [closedIn_typ])
  | Qnt =>
    exact (writes_node (writes_write "q") depth).congr (by simp) rfl
      (closedIn_leaf (by rintro _ ⟨⟩))
  | Qua q =>
    exact (writes_node (writes_name "g" (quantText q)) depth).congr (by simp) rfl
      (closedIn_leaf (by rintro _ ⟨⟩))
  | Min a b iha ihb =>
    exact (writes_node ((writes_write "m").andThen ((iha scope (depth + 1)).andThen
      (ihb scope (depth + 1)))) depth).congr (by simp) (by simp) (by simp [closedIn_min])
  | All q n x d b ihd ihb =>
    exact (writes_node ((writes_name "f" (quantText q)).andThen ((ihd scope (depth + 1)).andThen
      (ihb (scope ++ [x]) (depth + 1)))) depth).congr (by simp) (by simp) (by simp [closedIn_all])
  | Lam n x b ihb =>
    exact (writes_node ((writes_write "l").andThen (ihb (scope ++ [x]) (depth + 1))) depth).congr
      (by simp) (by simp) (by simp [closedIn_lam])
  | App f x ihf ihx =>
    exact (writes_node ((writes_write "a").andThen ((ihf scope (depth + 1)).andThen
      (ihx scope (depth + 1)))) depth).congr (by simp) (by simp) (by simp [closedIn_app])
  | Adt n args ex ih =>
    have hargs := writes_listed (writes_eachTerm fun a ha => ih a ha scope (depth + 1))
    exact (writes_node ((writes_name "d" n).andThen (hargs.andThen (writes_excludedNames ex)))
      depth).congr (by simp) (by simp) (by simp [closedIn_adt])
  | Ctr n args ih =>
    have hargs := writes_listed (writes_eachTerm fun a ha => ih a ha scope (depth + 1))
    exact (writes_node ((writes_name "c" n).andThen hargs) depth).congr (by simp) (by simp)
      (by simp [closedIn_ctr])
  | Mat c a f iha ihf =>
    exact (writes_node ((writes_name "b" c).andThen ((iha scope (depth + 1)).andThen
      (ihf scope (depth + 1)))) depth).congr (by simp) (by simp) (by simp [closedIn_mat])
  | Efq =>
    exact (writes_node (writes_write "e") depth).congr (by simp) rfl
      (closedIn_leaf (by rintro _ ⟨⟩))
  | Eql l r t ihl ihr iht =>
    exact (writes_node ((writes_write "=").andThen ((ihl scope (depth + 1)).andThen
      ((ihr scope (depth + 1)).andThen (iht scope (depth + 1))))) depth).congr (by simp) (by simp)
      (by simp [closedIn_eql])
  | Rfl =>
    exact (writes_node (writes_write "p") depth).congr (by simp) rfl
      (closedIn_leaf (by rintro _ ⟨⟩))
  | Rwt e m b ihe ihm ihb =>
    exact (writes_node ((writes_write "w").andThen ((ihe scope (depth + 1)).andThen
      ((ihm scope (depth + 1)).andThen (ihb scope (depth + 1))))) depth).congr (by simp) (by simp)
      (by simp [closedIn_rwt])
  | Hole n =>
    exact (writes_node (writes_name "h" n) depth).congr (by simp) rfl
      (closedIn_leaf (by rintro _ ⟨⟩))
  | Ann v t ihv iht =>
    exact (writes_node ((writes_write "n").andThen ((ihv scope (depth + 1)).andThen
      (iht scope (depth + 1)))) depth).congr (by simp) (by simp) (by simp [closedIn_ann])
  | Let bs t ihs iht =>
    have hvalues := writes_eachBinding fun b hb => ihs b hb scope (depth + 1)
    exact (writes_node ((writes_write "s[").andThen (hvalues.andThen ((writes_write "]").andThen
      (iht (scope ++ bs.map (·.id)) (depth + 1))))) depth).congr (by simp) (by simp)
      (by simp [closedIn_let])

end TemplateKey

end TeamyBend.Syntax
