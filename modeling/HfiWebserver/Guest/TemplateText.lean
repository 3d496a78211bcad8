import HfiWebserver.Guest.TemplateTree

/-! # Templates as they are written

The syntax of templates: texts with `{{name}}` in them, `{% for v in range(b) %}` with a number or a
name as its bound, `{% for v in t %}`, `{% if x %}` and `{% if not x %}`. A `Name` has no blanks and
none of the characters of the syntax, and a `Text` none of its marks.

Blanks can stand around a name in its hole and around the words of a tag, but the words themselves
stand one space apart, and an end tag can have spaces only: its text is compared when just these are
taken out.

* `eatSection_print`: reading a printed template looks up its bounds and gives back its tree;
* `render_print`: rendering it gives its meaning. -/

namespace HfiWebserver.Guest.TemplateText

open HfiWebserver.Lib.ByteStrings HfiWebserver.Lib.CString HfiWebserver.Lib.Numeral
open HfiWebserver.Lib.Fallible
open HfiWebserver.Lib
open HfiWebserver.Guest.Template HfiWebserver.Guest.TemplateTree

/-! ### Syntax -/

/-- The bytes of a name: no blank, no parenthesis, no brace, no `%`. -/
def plain (c : UInt8) : Bool :=
  !isspace c && c != 40 && c != 41 && c != 123 && c != 125 && c != 37

/-- A name that is not a word of the syntax. -/
structure Name where
  text : Bytes
  nonempty : text ≠ []
  plain : text.all plain = true
  free : text ≠ lit "not" ∧ text ≠ lit "range"

/-- A text without the marks of the syntax. -/
structure Text where
  bytes : Bytes
  no_hole : ¬ lit "\x7b\x7b" <:+: bytes
  no_tag : ¬ openTag <:+: bytes
  no_end : ¬ lit "\x7d\x7d" <:+: bytes
  no_brace : bytes.getLast? ≠ some 123

/-- Blanks, as `trim` drops them. -/
structure Blanks where
  bytes : Bytes
  blank : bytes.all blank = true

/-- Spaces only. -/
def spaces (n : ℕ) : Blanks where
  bytes := List.replicate n 32
  blank := List.all_eq_true.mpr fun c hc => by rw [(List.mem_replicate.mp hc).2]; decide

/-- A hole: a name with blanks around it, and the text behind it. -/
structure Hole where
  left : Blanks
  name : Name
  right : Blanks
  text : Text

/-- A text with holes. -/
structure Chunk where
  first : Text
  holes : List Hole

/-- The bound of a range. -/
inductive Bound
  | number (n : ℤ) (hn : LONG_MIN ≤ n ∧ n ≤ LONG_MAX)
  | named (x : Name) (hx : isNumber x.text = none)

inductive Tag
  | range (v : Name) (b : Bound)
  | each (v t : Name)
  | cond (neg : Bool) (x : Name)

/-- A section as it is written: its tag with blanks around the words, and spaces around the word of
its end tag. -/
structure Written where
  tag : Tag
  left : Blanks
  right : Blanks
  endLeft : ℕ
  endRight : ℕ

/-! ### Printing -/

/-- A word between blanks. -/
def padded (l r : Blanks) (w : Bytes) : Bytes := l.bytes ++ (w ++ r.bytes)

/-- The hole of a name behind its `{{`, as `doSubstitutions` cuts it out. -/
def holeText (h : Hole) : Bytes :=
  padded h.left h.right h.name.text ++ (lit "\x7d\x7d" ++ h.text.bytes)

def printHoles : List Hole → Bytes
  | [] => []
  | h :: hs => lit "\x7b\x7b" ++ (holeText h ++ printHoles hs)

def Chunk.print (c : Chunk) : Bytes := c.first.bytes ++ printHoles c.holes

def Bound.text : Bound → Bytes
  | .number n _ => Template.toString n
  | .named x _ => x.text

/-- The words of a tag. -/
def Tag.words : Tag → List Bytes
  | .range v b => [lit "for", v.text, lit "in", lit "range(" ++ (b.text ++ lit ")")]
  | .each v t => [lit "for", v.text, lit "in", t.text]
  | .cond neg x => if neg then [lit "if", lit "not", x.text] else [lit "if", x.text]

def Tag.text (k : Tag) : Bytes := (lit " ").intercalate k.words

/-- `{% … %}`. -/
def tagged (l r : Blanks) (w : Bytes) : Bytes := openTag ++ (padded l r w ++ closeTag)

def Tag.endName : Tag → Bytes
  | .range _ _ => lit "endfor"
  | .each _ _ => lit "endfor"
  | .cond _ _ => lit "endif"

def Written.print (k : Written) : Bytes := tagged k.left k.right k.tag.text

def Written.printEnd (k : Written) : Bytes :=
  tagged (spaces k.endLeft) (spaces k.endRight) k.tag.endName

/-- The source of a template. -/
def print : Doc Chunk Written → Bytes
  | .text c => c.print
  | .block c k body rest => c.print ++ (k.print ++ (print body ++ (k.printEnd ++ print rest)))

/-! ### Meaning -/

variable {F : Type}

/-- The section a tag opens: the bound of a loop is looked up in the values of the template. -/
def Tag.resolve (top : ValueMap F) : Tag → Except Fault Control
  | .range v (.number n _) => .ok (.forRange v.text n)
  | .range v (.named x _) =>
    match top x.text with
    | some (.IntValue n) => .ok (.forRange v.text n)
    | some _ =>
      .error (.render_error (lit "for loop range var " ++ x.text ++
        lit " must be an int (but it's not)"))
    | none => .error (.render_error (lit "for loop range var " ++ x.text ++ lit " not recognized"))
  | .each v t =>
    match top t.text with
    | some (.TupleValue _) => .ok (.forTuple v.text t.text)
    | some _ =>
      .error (.render_error (lit "for loop var " ++ t.text ++
        lit " must be a range or a vector (but it's neither)"))
    | none => .error (.render_error (lit "for loop var " ++ t.text ++ lit " not recognized"))
  | .cond neg x => .ok (.ifSection neg x.text)

/-- All bounds are looked up, in the order of the source, also those of contents that are not
rendered. -/
def resolve {C : Type} (top : ValueMap F) : Doc C Written → Except Fault (Doc C Control)
  | .text c => .ok (.text c)
  | .block c k body rest => do
    let k ← k.tag.resolve top
    let body ← resolve top body
    let rest ← resolve top rest
    pure (.block c k body rest)

/-- The same tree over other texts. -/
def mapText {C D K : Type} (g : C → D) : Doc C K → Doc D K
  | .text c => .text (g c)
  | .block c k body rest => .block (g c) k (mapText g body) (mapText g rest)

/-- The value of a hole, and the text behind it. -/
def fill [FloatText F] (m : ValueMap F) (hole : Hole) : Except Fault Bytes :=
  match m hole.name.text with
  | none => .error (.render_error (lit "name " ++ hole.name.text ++ lit " not defined"))
  | some value => .ok (value.render ++ hole.text.bytes)

def Chunk.eval [FloatText F] (c : Chunk) (m : ValueMap F) : Except Fault Bytes :=
  (c.holes.mapM (fill m)).map fun texts => c.first.bytes ++ texts.flatten

/-- **The meaning of a template**: its bounds are looked up, and then its tree is evaluated. -/
def meaning [FloatText F] (d : Doc Chunk Written) (m : ValueMap F) : Except Fault Bytes := do
  let tree ← resolve m d
  tree.eval Chunk.eval m

/-! ### Numbers -/

theorem isdigit_digitChar {d : ℕ} (hd : d < 10) : isdigit (digitChar d) = true := by
  interval_cases d <;> decide

theorem isdigit_of_mem_decimal {n : ℕ} {c : UInt8} (hc : c ∈ decimal n) : isdigit c = true := by
  have hnum : ∀ p n, ∀ c ∈ numeral 10 p n, isdigit c = true := by
    intro p
    induction p with
    | zero => simp [numeral]
    | succ p ih =>
      intro n c hc
      rw [numeral, List.mem_append, List.mem_singleton] at hc
      rcases hc with hc | rfl
      · exact ih _ c hc
      · exact isdigit_digitChar (Nat.mod_lt n (by omega))
  exact hnum _ n c hc

theorem decimal_ne_nil (n : ℕ) : decimal n ≠ [] := by
  rw [← List.length_pos_iff, decimal, length_numeral]
  omega

theorem digitsValue_eq {ds : Bytes} (hds : ∀ c ∈ ds, isdigit c = true) :
    digitsValue ds = value 10 ds := by
  induction ds using List.reverseRecOn with
  | nil => rfl
  | append_singleton ds c ih =>
    have hc : isdigit c = true := hds c (by simp)
    have hlt : c.toNat < 65 := by
      simp only [isdigit, Bool.and_eq_true, decide_eq_true_eq, UInt8.le_iff_toNat_le] at hc
      exact lt_of_le_of_lt hc.2 (by decide)
    have hsnoc : digitsValue (ds ++ [c]) = 10 * digitsValue ds + (c.toNat - 48) := by
      unfold digitsValue
      rw [List.foldl_append]
      rfl
    rw [hsnoc, ih fun c hc => hds c (by simp [hc]), value_append_singleton, digitValue, if_pos hlt]

theorem digitsValue_decimal (n : ℕ) : digitsValue (decimal n) = n := by
  rw [digitsValue_eq fun c hc => isdigit_of_mem_decimal hc, value_decimal]

/-- **An `int` is read as it is written.** -/
theorem isNumber_toString {n : ℤ} (hn : LONG_MIN ≤ n ∧ n ≤ LONG_MAX) :
    isNumber (Template.toString n) = some n := by
  have hall : ∀ k, (decimal k).all isdigit = true := fun k =>
    List.all_eq_true.mpr fun c hc => isdigit_of_mem_decimal hc
  unfold isNumber Template.toString
  split_ifs with h0
  · have hspace : (lit "-" ++ decimal n.natAbs).dropWhile isspace =
        45 :: decimal n.natAbs := by
      exact List.dropWhile_cons_of_neg (by decide)
    simp only [hspace, signed, digitsValue_decimal, if_true]
    have habs : (-(n.natAbs : ℤ)) = n := by omega
    rw [if_pos ⟨decimal_ne_nil _, hall _, by omega, by omega⟩, habs]
  · obtain ⟨c, t, ht⟩ := List.exists_cons_of_ne_nil (decimal_ne_nil n.natAbs)
    have hc : isdigit c = true := isdigit_of_mem_decimal (n := n.natAbs) (by rw [ht]; simp)
    have hspace : (decimal n.natAbs).dropWhile isspace = decimal n.natAbs := by
      rw [ht]
      exact List.dropWhile_cons_of_neg (by simp [isspace_of_isdigit hc])
    have hsign : signed (decimal n.natAbs) = (false, decimal n.natAbs) := by
      rw [ht]
      exact signed_of_isdigit hc t
    simp only [hspace, hsign, digitsValue_decimal, Bool.false_eq_true, if_false]
    have habs : (n.natAbs : ℤ) = n := by omega
    rw [if_pos ⟨decimal_ne_nil _, hall _, by omega, by omega⟩, habs]

/-! ### Texts -/

theorem plain_of_mem_name {n : Name} {c : UInt8} (hc : c ∈ n.text) : plain c = true :=
  List.all_eq_true.mp n.plain c hc

/-- A character of the syntax is in no name. -/
theorem not_mem_name {n : Name} {c : UInt8} (hc : plain c = false) : c ∉ n.text := fun h => by
  rw [plain_of_mem_name h] at hc
  cases hc

theorem blank_of_plain {c : UInt8} (hc : plain c = true) : blank c = false := by
  by_contra h
  simp only [blank, Bool.not_eq_false, Bool.or_eq_true, beq_iff_eq] at h
  rcases h with (rfl | rfl) | rfl <;> exact absurd hc (by decide)

/-- The blanks around a word are trimmed. -/
theorem trim_padded (l r : Blanks) {w : Bytes} (hhead : ∀ c, w.head? = some c → blank c = false)
    (hlast : ∀ c, w.getLast? = some c → blank c = false) : trim (padded l r w) = w :=
  Split.trim_padded (List.all_eq_true.mp l.blank) (List.all_eq_true.mp r.blank) hhead hlast

theorem trim_name (h : Hole) : trim (padded h.left h.right h.name.text) = h.name.text :=
  trim_padded _ _ (fun _ hc => blank_of_plain (plain_of_mem_name (List.mem_of_head? hc)))
    fun _ hc => blank_of_plain (plain_of_mem_name (List.mem_of_getLast? hc))

theorem not_mem_padded {l r : Blanks} {w : Bytes} {c : UInt8} (hb : blank c = false) (hw : c ∉ w) :
    c ∉ padded l r w := by
  have hblanks : ∀ b : Blanks, c ∉ b.bytes := fun b h => by
    rw [List.all_eq_true.mp b.blank c h] at hb
    cases hb
  simp only [padded, List.mem_append, not_or]
  exact ⟨hblanks l, hw, hblanks r⟩

/-- A character of the syntax, and no blank, is not in a hole before its `}}`. -/
theorem not_mem_name_padded {h : Hole} {c : UInt8} (hc : plain c = false ∧ blank c = false) :
    c ∉ padded h.left h.right h.name.text := not_mem_padded hc.2 (not_mem_name hc.1)

/-- A pattern with such a character does not occur there. -/
theorem not_infix_name {h : Hole} {p : Bytes} (c : UInt8) (hc : plain c = false ∧ blank c = false)
    (hp : c ∈ p) : ¬ p <:+: padded h.left h.right h.name.text :=
  fun hin => not_mem_name_padded hc (hin.subset hp)

theorem not_last_name {h : Hole} {c : UInt8} (hc : plain c = false ∧ blank c = false) :
    (padded h.left h.right h.name.text).getLast? ≠ some c :=
  fun hl => not_mem_name_padded hc (List.mem_of_getLast? hl)

theorem not_head_name {h : Hole} {c : UInt8} (hc : plain c = false ∧ blank c = false) :
    (padded h.left h.right h.name.text).head? ≠ some c :=
  fun hl => not_mem_name_padded hc (List.mem_of_head? hl)

theorem not_infix_holeText (h : Hole) : ¬ lit "\x7b\x7b" <:+: holeText h := by
  show ¬ [123, 123] <:+: padded h.left h.right h.name.text ++ ([125, 125] ++ h.text.bytes)
  rw [Split.infix_pair_append, Split.infix_pair_append]
  rintro (hn | (hd | ht | hx) | hx)
  · exact not_infix_name 123 (by decide) (by simp) hn
  · revert hd
    decide
  · exact h.text.no_hole ht
  · simp at hx
  · exact not_last_name (by decide) hx.1

theorem last_holeText (h : Hole) : (holeText h).getLast? ≠ some 123 := by
  have ht := h.text.no_brace
  unfold holeText
  rw [List.getLast?_append_of_ne_nil _ (List.append_ne_nil_of_left_ne_nil (by decide) _)]
  rcases List.eq_nil_or_concat h.text.bytes with h0 | ⟨t, c, h0⟩
  · rw [h0]
    decide
  · rw [h0] at ht ⊢
    simpa using ht

/-- The holes are cut out as they were printed. -/
theorem split_printHoles {first : Bytes} (hno : ¬ lit "\x7b\x7b" <:+: first)
    (hlast : first.getLast? ≠ some 123) (hs : List Hole) :
    split (first ++ printHoles hs) (lit "\x7b\x7b") = first :: hs.map holeText := by
  induction hs generalizing first with
  | nil =>
    rw [printHoles, List.append_nil]
    exact Split.split_of_absent hno
  | cons h hs ih =>
    rw [printHoles, List.map_cons, ← ih (not_infix_holeText h) (last_holeText h)]
    exact Split.split_append (by decide) (Split.not_infix_twice hno hlast) _

theorem split_holeText (h : Hole) :
    split (holeText h) (lit "\x7d\x7d") =
      [padded h.left h.right h.name.text, h.text.bytes] := by
  have hno : ¬ [125, 125] <:+: padded h.left h.right h.name.text :=
    not_infix_name 125 (by decide) (by simp)
  have hcut := Split.split_append (p := lit "\x7d\x7d") (by decide)
    (Split.not_infix_twice hno (not_last_name (by decide))) h.text.bytes
  exact hcut.trans (congrArg _ (Split.split_of_absent h.text.no_end))

/-- **A printed text renders to what it means.** -/
theorem doSubstitutions_print [FloatText F] (c : Chunk) (m : ValueMap F) :
    doSubstitutions c.print m = c.eval m := by
  have hsplit := split_printHoles c.first.no_hole c.first.no_brace c.holes
  have hfill : substitution m ∘ holeText = fill m := by
    funext h
    rw [Function.comp_apply, substitution, split_holeText]
    simp only [List.headD_cons, trim_name]
    unfold fill
    rcases m h.name.text with _ | v <;> rfl
  rw [doSubstitutions_eq, holes, Chunk.print, hsplit, List.drop_one, List.tail_cons, List.mapM_map,
    hfill]
  rfl

/-- There is no tag in a printed text. -/
theorem not_infix_print (c : Chunk) : ¬ openTag <:+: c.print := by
  have hhole : ∀ h : Hole, ¬ openTag <:+: holeText h := by
    intro h
    show ¬ [123, 37] <:+: padded h.left h.right h.name.text ++ ([125, 125] ++ h.text.bytes)
    rw [Split.infix_pair_append, Split.infix_pair_append]
    rintro (hn | (hd | ht | hx) | hx)
    · exact not_infix_name 123 (by decide) (by simp) hn
    · revert hd
      decide
    · exact h.text.no_tag ht
    · simp at hx
    · exact not_last_name (by decide) hx.1
  have hholes : ∀ (hs : List Hole) (first : Bytes), ¬ openTag <:+: first →
      first.getLast? ≠ some 123 → ¬ openTag <:+: first ++ printHoles hs := by
    intro hs
    induction hs with
    | nil =>
      intro first hfirst _
      rwa [printHoles, List.append_nil]
    | cons h hs ih =>
      intro first hfirst hlast
      rw [printHoles]
      show ¬ [123, 37] <:+: first ++ ([123, 123] ++ (holeText h ++ printHoles hs))
      rw [Split.infix_pair_append, Split.infix_pair_append]
      rintro (hf | (hd | hr | hx) | hx)
      · exact hfirst hf
      · revert hd
        decide
      · exact ih _ (hhole h) (last_holeText h) hr
      · have hne : padded h.left h.right h.name.text ≠ [] :=
          List.append_ne_nil_of_right_ne_nil _ (List.append_ne_nil_of_left_ne_nil h.name.nonempty _)
        have hhead : (holeText h ++ printHoles hs).head? =
            (padded h.left h.right h.name.text).head? := by
          unfold holeText
          rw [List.append_assoc, List.head?_append_of_ne_nil _ hne]
        rw [hhead] at hx
        exact not_head_name (by decide) hx.2
      · exact hlast hx.1
  exact hholes c.holes _ c.first.no_tag c.first.no_brace

/-! ### Tags -/

theorem plain_of_isdigit {c : UInt8} (hc : isdigit c = true) : plain c = true := by
  have hspace := isspace_of_isdigit hc
  by_contra h
  simp only [plain, hspace, Bool.not_eq_true, Bool.and_eq_false_iff, bne_eq_false_iff_eq,
    Bool.not_false, Bool.true_eq_false, false_or] at h
  rcases h with (((rfl | rfl) | rfl) | rfl) | rfl <;> exact absurd hc (by decide)

theorem plain_of_mem_bound {b : Bound} {c : UInt8} (hc : c ∈ b.text) : plain c = true := by
  cases b with
  | number n hn =>
    simp only [Bound.text, Template.toString] at hc
    split_ifs at hc
    · rcases List.mem_append.mp hc with hc | hc
      · have h45 : c = 45 := by simpa using (show c ∈ [(45 : UInt8)] from hc)
        subst h45
        decide
      · exact plain_of_isdigit (isdigit_of_mem_decimal hc)
    · exact plain_of_isdigit (isdigit_of_mem_decimal hc)
  | named x hx => exact plain_of_mem_name hc

/-- Neither a space nor a `}` is in a word of a tag. -/
theorem not_mem_words {k : Tag} {w : Bytes} (hw : w ∈ k.words) {c : UInt8}
    (hc : c = 32 ∨ c = 125) : c ∉ w := by
  have hplain : plain c = false := by rcases hc with rfl | rfl <;> decide
  have hlit : c ∉ lit "for" ∧ c ∉ lit "in" ∧ c ∉ lit "if" ∧ c ∉ lit "not" ∧ c ∉ lit "range(" ∧
      c ∉ lit ")" := by
    rcases hc with rfl | rfl <;> decide
  obtain ⟨h1, h2, h3, h4, h5, h6⟩ := hlit
  cases k with
  | range v b =>
    have hb : c ∉ b.text := fun h => by
      rw [plain_of_mem_bound h] at hplain
      cases hplain
    have hv : c ∉ v.text := not_mem_name hplain
    simp only [Tag.words, List.mem_cons, List.not_mem_nil, or_false] at hw
    rcases hw with rfl | rfl | rfl | rfl
    · exact h1
    · exact hv
    · exact h2
    · simp only [List.mem_append, not_or]
      exact ⟨h5, hb, h6⟩
  | each v t =>
    simp only [Tag.words, List.mem_cons, List.not_mem_nil, or_false] at hw
    rcases hw with rfl | rfl | rfl | rfl
    · exact h1
    · exact not_mem_name hplain
    · exact h2
    · exact not_mem_name hplain
  | cond neg x =>
    simp only [Tag.words] at hw
    split_ifs at hw <;> simp only [List.mem_cons, List.not_mem_nil, or_false] at hw
    · rcases hw with rfl | rfl | rfl
      · exact h3
      · exact h4
      · exact not_mem_name hplain
    · rcases hw with rfl | rfl
      · exact h3
      · exact not_mem_name hplain

theorem split_words {ws : List Bytes} (hws : ∀ w ∈ ws, (32 : UInt8) ∉ w) (hne : ws ≠ []) :
    split ((lit " ").intercalate ws) (lit " ") = ws :=
  (Split.split_singleton 32 _).trans (List.splitOn_intercalate 32 hws hne)

theorem split_text (k : Tag) : split k.text (lit " ") = k.words := by
  refine split_words (fun w hw => not_mem_words hw (Or.inl rfl)) ?_
  cases k with
  | cond neg x => cases neg <;> simp [Tag.words]
  | _ => simp [Tag.words]

theorem not_mem_text (k : Tag) : (125 : UInt8) ∉ k.text := fun h => by
  rcases Split.mem_of_mem_intercalate h with h | ⟨w, hw, h⟩
  · revert h
    decide
  · exact not_mem_words hw (Or.inr rfl) h

theorem trim_text (k : Tag) (l r : Blanks) : trim (padded l r k.text) = k.text := by
  have hend : ∀ (n : Name) (ws : List Bytes) (c : UInt8),
      ((lit " ").intercalate (ws ++ [n.text])).getLast? = some c → blank c = false := by
    intro n ws c hc
    rw [Split.getLast?_intercalate _ n.nonempty] at hc
    exact blank_of_plain (plain_of_mem_name (List.mem_of_getLast? hc))
  have hstart : ∀ (w : Bytes) (ws : List Bytes) (c : UInt8), w = lit "for" ∨ w = lit "if" →
      ((lit " ").intercalate (w :: ws)).head? = some c → blank c = false := by
    rintro w ws c (rfl | rfl) hc
    · rw [Split.head?_intercalate _ (by decide)] at hc
      cases hc
      decide
    · rw [Split.head?_intercalate _ (by decide)] at hc
      cases hc
      decide
  cases k with
  | range v b =>
    refine trim_padded l r (fun c => hstart _ _ c (Or.inl rfl)) fun c hc => ?_
    have hlast := Split.getLast?_intercalate (lit " ") (w := lit "range(" ++ (b.text ++ lit ")"))
      (List.append_ne_nil_of_left_ne_nil (by decide) _) [lit "for", v.text, lit "in"]
    have hc' := hlast.symm.trans hc
    rw [← List.append_assoc, List.getLast?_append_of_ne_nil _ (by decide)] at hc'
    cases hc'
    decide
  | each v t =>
    exact trim_padded l r (fun c => hstart _ _ c (Or.inl rfl))
      (hend t [lit "for", v.text, lit "in"])
  | cond neg x =>
    cases neg with
    | false => exact trim_padded l r (fun c => hstart _ _ c (Or.inr rfl)) (hend x [lit "if"])
    | true =>
      exact trim_padded l r (fun c => hstart _ _ c (Or.inr rfl)) (hend x [lit "if", lit "not"])

section

variable (l r : Blanks)

theorem length_tagged (w : Bytes) : (tagged l r w).length = (padded l r w).length + 2 + 2 := by
  have ho : openTag.length = 2 := rfl
  have hc : closeTag.length = 2 := rfl
  simp only [tagged, List.length_append, ho, hc]
  omega

theorem find_closeTag_tagged {w : Bytes} (hw : (125 : UInt8) ∉ w) (t : Bytes) :
    Split.find closeTag (tagged l r w ++ t) = some ((padded l r w).length + 2) := by
  have hno : ¬ closeTag <:+: (openTag ++ padded l r w) ++ closeTag.dropLast := by
    intro h
    have hmem : (125 : UInt8) ∈ (openTag ++ padded l r w) ++ closeTag.dropLast :=
      h.subset (by decide)
    simp only [List.mem_append] at hmem
    rcases hmem with (h | h) | h
    · revert h
      decide
    · exact not_mem_padded (by decide) hw h
    · revert h
      decide
  have hfind := Split.find_append (by decide) hno t
  have htwo : openTag.length = 2 := rfl
  rw [List.length_append, Nat.add_comm, htwo] at hfind
  unfold tagged
  simpa only [List.append_assoc] using hfind

theorem inside_tagged (w t : Bytes) :
    inside (tagged l r w ++ t) ((padded l r w).length + 2) = padded l r w := by
  unfold inside tagged
  rw [if_neg (by omega), List.append_assoc, List.append_assoc]
  exact List.take_left

theorem drop_tagged (w t : Bytes) :
    (tagged l r w ++ t).drop ((padded l r w).length + 2 + 2) = t := by
  rw [← length_tagged, List.drop_left]

/-- What `eatSection` makes of a text that ends with a tag. -/
theorem eatSection_tagged {top : ValueMap F} {n : ℕ} {c w : Bytes} (hc : ¬ openTag <:+: c)
    (hw : (125 : UInt8) ∉ w) (htrim : trim (padded l r w) = w) (t : Bytes) :
    eatSection top (n + 1) (c ++ (tagged l r w ++ t)) =
      if (split w (lit " ")).head? = some (lit "endfor") ∨
          (split w (lit " ")).head? = some (lit "endif") then do
        if (split w (lit " ")).length ≠ 1 then
          throw (.render_error (lit "control section \x7b% " ++ w ++ lit " unrecognized"))
        pure ([.code c], tagged l r w ++ t)
      else (do
        let k ← openSection top w (split w (lit " "))
        let (sections, pos) ← eatSection top n t
        let rest ← controlEnd k pos
        let (more, finalPos) ← eatSection top n rest
        pure (.code c :: .block k sections :: more, finalPos)) := by
  have hopen : Split.find openTag (c ++ (tagged l r w ++ t)) = some c.length := by
    have h := Split.find_append (p := openTag) (by decide) (Split.not_infix_pair (by decide) hc)
      (padded l r w ++ (closeTag ++ t))
    unfold tagged
    simpa only [List.append_assoc] using h
  rw [eatSection]
  simp only [hopen, List.take_left, List.drop_left, find_closeTag_tagged l r hw,
    inside_tagged, drop_tagged, htrim]

end

/-- An end tag ends the sections that are read. -/
theorem eatSection_printEnd {top : ValueMap F} {n : ℕ} {c : Bytes} (hc : ¬ openTag <:+: c)
    (k : Written) (t : Bytes) :
    eatSection top (n + 1) (c ++ (k.printEnd ++ t)) = .ok ([.code c], k.printEnd ++ t) := by
  have hend : ∀ (l r : Blanks) (e : Bytes), e = lit "endfor" ∨ e = lit "endif" →
      eatSection top (n + 1) (c ++ (tagged l r e ++ t)) = .ok ([.code c], tagged l r e ++ t) := by
    intro l r e he
    have hword : split e (lit " ") = [e] :=
      Split.split_of_absent (by rcases he with rfl | rfl <;> decide)
    have htrim : trim (padded l r e) = e := by
      refine trim_padded l r (fun c hc => ?_) fun c hc => ?_
      · rcases he with rfl | rfl <;> (cases hc; decide)
      · rcases he with rfl | rfl <;> (cases hc; decide)
    rw [eatSection_tagged l r hc (by rcases he with rfl | rfl <;> decide) htrim, hword,
      if_pos (by simpa using he), if_neg (by simp)]
    rfl
  unfold Written.printEnd
  cases k.tag with
  | range v b => exact hend _ _ _ (Or.inl rfl)
  | each v t => exact hend _ _ _ (Or.inl rfl)
  | cond neg x => exact hend _ _ _ (Or.inr rfl)

theorem replaceGlobal_space (s : Bytes) :
    replaceGlobal s (lit " ") [] = s.filter (· ≠ 32) := Split.replaceAll_singleton 32 s

theorem filter_space {w : Bytes} (hw : (32 : UInt8) ∉ w) : w.filter (· ≠ 32) = w :=
  List.filter_eq_self.mpr fun _ hc => by simpa using ne_of_mem_of_not_mem hc hw

/-- The end tag of a section is read. -/
theorem controlEnd_printEnd {c : Control} (k : Written) (hk : c.endName = k.tag.endName)
    (t : Bytes) : controlEnd c (k.printEnd ++ t) = .ok t := by
  have hmem : (125 : UInt8) ∉ k.tag.endName := by
    cases k.tag <;> (simp only [Tag.endName]; decide)
  have hword : (32 : UInt8) ∉ k.tag.endName := by
    cases k.tag <;> (simp only [Tag.endName]; decide)
  have hspaces : ∀ n, (spaces n).bytes.filter (· ≠ 32) = [] := fun n =>
    List.filter_eq_nil_iff.mpr fun c hc => by simp [(List.mem_replicate.mp hc).2]
  have hnorm : k.printEnd.filter (· ≠ 32) = openTag ++ k.tag.endName ++ closeTag := by
    rw [Written.printEnd, tagged, padded, List.filter_append, List.filter_append,
      List.filter_append, List.filter_append, hspaces, hspaces, filter_space hword]
    simp only [List.nil_append, List.append_nil, List.append_assoc]
    rfl
  have htake : (k.printEnd ++ t).take
      ((padded (spaces k.endLeft) (spaces k.endRight) k.tag.endName).length + 2 + 2) =
        k.printEnd := by
    rw [← length_tagged, Written.printEnd, List.take_left]
  have hfind : Split.find closeTag (k.printEnd ++ t) = some _ :=
    find_closeTag_tagged (spaces k.endLeft) (spaces k.endRight) hmem t
  have hdrop : (k.printEnd ++ t).drop _ = t :=
    drop_tagged (spaces k.endLeft) (spaces k.endRight) k.tag.endName t
  unfold controlEnd
  simp only [hfind, htake, replaceGlobal_space, hnorm, hk, hdrop, ne_eq, not_true, if_false,
    pure_eq]

theorem endName_of_resolve {top : ValueMap F} {k : Tag} {c : Control} (h : k.resolve top = .ok c) :
    c.endName = k.endName := by
  cases k with
  | range v b =>
    cases b with
    | number n hn =>
      cases h
      rfl
    | named x hx =>
      simp only [Tag.resolve] at h
      split at h <;> cases h
      rfl
  | each v t =>
    simp only [Tag.resolve] at h
    split at h <;> cases h
    rfl
  | cond neg x =>
    cases h
    rfl

/-- A loop over a range: the bound is a number or the name of one. -/
theorem forControl_range (top : ValueMap F) (controlChange v : Bytes) {b : Bytes}
    (h32 : (32 : UInt8) ∉ b) (h40 : (40 : UInt8) ∉ b) (h41 : (41 : UInt8) ∉ b) :
    forControl top controlChange [lit "for", v, lit "in", lit "range(" ++ (b ++ lit ")")] =
      match isNumber b with
      | some n => .ok (.forRange v n)
      | none =>
        match top b with
        | some (.IntValue n) => .ok (.forRange v n)
        | some _ =>
          .error (.render_error (lit "for loop range var " ++ b ++
            lit " must be an int (but it's not)"))
        | none => .error (.render_error (lit "for loop range var " ++ b ++
          lit " not recognized")) := by
  have hfilter : (lit "range(" ++ (b ++ lit ")")).filter (· ≠ 32) =
      lit "range(" ++ (b ++ lit ")") := by
    refine filter_space ?_
    simp only [List.mem_append, not_or]
    exact ⟨by decide, h32, by decide⟩
  have hopen : split (lit "range(" ++ (b ++ lit ")")) (lit "(") =
      [lit "range", b ++ lit ")"] := by
    have hcut := Split.split_append (p := [(40 : UInt8)]) (l := lit "range") (by decide)
      (by decide) (b ++ lit ")")
    refine hcut.trans (congrArg _ (Split.split_of_absent ?_))
    rw [List.singleton_infix_iff, List.mem_append, not_or]
    exact ⟨h40, by decide⟩
  have hclose : (split (b ++ lit ")") (lit ")")).headD [] = b := by
    have hcut := Split.split_append (p := [(41 : UInt8)]) (l := b) (by decide)
      (by simpa [List.singleton_infix_iff] using h41) []
    rw [List.append_nil] at hcut
    exact congrArg (List.headD · []) hcut
  have hflat : [lit "range(" ++ (b ++ lit ")")].flatten = lit "range(" ++ (b ++ lit ")") := by simp
  unfold forControl
  simp only [word, List.getElem?_cons_succ, List.getElem?_cons_zero, ok_bind, ne_eq,
    not_true, if_false, List.drop_succ_cons, List.drop_zero, hflat, replaceGlobal_space, hfilter,
    hopen, List.head?_cons, if_true, List.length_cons, List.length_nil, List.getD_cons_succ,
    List.getD_cons_zero, hclose]
  rfl

/-- A loop over a tuple. -/
theorem forControl_each (top : ValueMap F) (controlChange v : Bytes) {t : Bytes}
    (h32 : (32 : UInt8) ∉ t) (h40 : (40 : UInt8) ∉ t) (hrange : t ≠ lit "range") :
    forControl top controlChange [lit "for", v, lit "in", t] =
      match top t with
      | some (.TupleValue _) => .ok (.forTuple v t)
      | some _ =>
        .error (.render_error (lit "for loop var " ++ t ++
          lit " must be a range or a vector (but it's neither)"))
      | none => .error (.render_error (lit "for loop var " ++ t ++ lit " not recognized")) := by
  have hopen : split t (lit "(") = [t] := Split.split_of_absent (by
    show ¬ [40] <:+: t
    rwa [List.singleton_infix_iff])
  have hflat : [t].flatten = t := by simp
  unfold forControl
  simp only [word, List.getElem?_cons_succ, List.getElem?_cons_zero, ok_bind, ne_eq,
    not_true, if_false, List.drop_succ_cons, List.drop_zero, hflat, replaceGlobal_space,
    filter_space h32, hopen, List.head?_cons, Option.some.injEq, hrange]
  rfl

/-- **A tag opens the section it stands for.** -/
theorem openSection_words (top : ValueMap F) (k : Tag) :
    openSection top k.text k.words = k.resolve top := by
  cases k with
  | range v b =>
    have hb : ∀ {c : UInt8}, plain c = false → c ∉ b.text := fun hc h => by
      rw [plain_of_mem_bound h] at hc
      cases hc
    have hfor := forControl_range top (Tag.range v b).text v.text (hb (by decide)) (hb (by decide))
      (hb (by decide))
    have hopen : openSection top (Tag.range v b).text (Tag.range v b).words = _ := hfor
    rw [hopen]
    cases b with
    | number n hn => simp only [Bound.text, isNumber_toString hn, Tag.resolve]
    | named x hx => simp only [Bound.text, hx, Tag.resolve]
  | each v t =>
    exact forControl_each top (Tag.each v t).text v.text (not_mem_name (by decide))
      (not_mem_name (by decide)) t.free.2
  | cond neg x =>
    have hsplit := split_text (.cond neg x)
    have hnot : x.text ≠ lit "not" := x.free.1
    cases neg with
    | false =>
      have hopen : openSection top (Tag.cond false x).text (Tag.cond false x).words =
        parseIfCondition (Tag.cond false x).text := rfl
      rw [hopen, parseIfCondition, hsplit]
      simp [Tag.words, hnot, Tag.resolve]
    | true =>
      have hopen : openSection top (Tag.cond true x).text (Tag.cond true x).words =
        parseIfCondition (Tag.cond true x).text := rfl
      rw [hopen, parseIfCondition, hsplit]
      simp [Tag.words, Tag.resolve]

/-! ### Templates -/

theorem words_head (k : Tag) : ¬ (k.words.head? = some (lit "endfor") ∨
    k.words.head? = some (lit "endif")) := by
  cases k with
  | cond neg x =>
    cases neg <;>
      (simp only [Tag.words, Bool.false_eq_true, if_false, if_true, List.head?_cons]; decide)
  | _ =>
    simp only [Tag.words, List.head?_cons]
    decide

/-- **Reading a printed template** looks up its bounds and gives back its tree, up to the end tag
that follows it. -/
theorem eatSection_print (top : ValueMap F) (d : Doc Chunk Written) {tail : Bytes} {n : ℕ}
    (htail : tail = [] ∨ ∃ (k : Written) (t : Bytes), tail = k.printEnd ++ t)
    (hn : (print d ++ tail).length < n) :
    eatSection top n (print d ++ tail) =
      (resolve top d).map fun t => ((mapText Chunk.print t).sections, tail) := by
  induction d generalizing tail n with
  | text c =>
    obtain ⟨n, rfl⟩ : ∃ k, n = k + 1 := ⟨n - 1, by omega⟩
    rcases htail with rfl | ⟨k, t, rfl⟩
    · rw [List.append_nil, eatSection, print, Split.find_eq_none_iff.mpr (not_infix_print c)]
      rfl
    · exact eatSection_printEnd (not_infix_print c) k t
  | block c k body rest ihb ihr =>
    obtain ⟨n, rfl⟩ : ∃ k, n = k + 1 := ⟨n - 1, by omega⟩
    have hsource : print (.block c k body rest) ++ tail = c.print ++ (k.print ++
        (print body ++ (k.printEnd ++ (print rest ++ tail)))) := by
      simp only [print, List.append_assoc]
    have hk : 0 < k.print.length := by
      rw [Written.print, length_tagged]
      omega
    have he : 0 < k.printEnd.length := by
      rw [Written.printEnd, length_tagged]
      omega
    rw [hsource] at hn ⊢
    simp only [List.length_append] at hn
    rw [Written.print, eatSection_tagged k.left k.right (not_infix_print c) (not_mem_text k.tag)
      (trim_text k.tag k.left k.right), split_text, if_neg (words_head k.tag), openSection_words,
      resolve]
    rcases hres : k.tag.resolve top with e | ctl
    · rfl
    · simp only [ok_bind]
      rw [ihb (Or.inr ⟨k, print rest ++ tail, rfl⟩) (by simp only [List.length_append]; omega)]
      rcases resolve top body with e | b
      · rfl
      · simp only [map_ok, ok_bind, controlEnd_printEnd k (endName_of_resolve hres)]
        rw [ihr htail (by simp only [List.length_append]; omega)]
        rcases resolve top rest with e | t <;> rfl

theorem eval_mapText {C D : Type} [FloatText F] {g : C → D}
    {leaf : D → ValueMap F → Except Fault Bytes} (t : Doc C Control) (m : ValueMap F) :
    (mapText g t).eval leaf m = t.eval (fun c => leaf (g c)) m := by
  induction t generalizing m with
  | text c => rfl
  | block c k body rest ihb ihr =>
    have hb : (mapText g body).eval leaf = body.eval fun c => leaf (g c) := funext ihb
    simp only [mapText, Doc.eval, hb, ihr]

/-- The source of a template whose bounds were found renders to the meaning of its tree. -/
theorem render_resolved [FloatText F] {d : Doc Chunk Written} {m : ValueMap F}
    {t : Doc Chunk Control} (h : resolve m d = .ok t) :
    render (print d) m = (t.eval Chunk.eval m).map (·, m) := by
  have hread := eatSection_print m d (n := (print d).length + 1) (Or.inl rfl)
    (by rw [List.append_nil]; omega)
  have hleaf : (fun c : Chunk => doSubstitutions (F := F) c.print) = Chunk.eval :=
    funext fun c => funext fun m => doSubstitutions_print c m
  rw [List.append_nil, h] at hread
  rw [render_tree hread, eval_mapText, hleaf]

/-- **A printed template renders to its meaning**, fault for fault, and leaves the values as they
were. -/
theorem render_print [FloatText F] (d : Doc Chunk Written) (m : ValueMap F) :
    render (print d) m = (meaning d m).map (·, m) := by
  rcases hres : resolve m d with e | t
  · have hread := eatSection_print m d (n := (print d).length + 1) (Or.inl rfl)
      (by rw [List.append_nil]; omega)
    rw [List.append_nil, hres] at hread
    simp only [render, meaning, hread, hres, map_error, error_bind]
  · simp only [render_resolved hres, meaning, hres, ok_bind]

end HfiWebserver.Guest.TemplateText
