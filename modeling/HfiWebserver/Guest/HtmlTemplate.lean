import HfiWebserver.Guest.TemplateText

/-! # The program `html_template`

Its source is the print of a document (`print_document`), whose bounds are found, so it renders to
what the document means: the page (`render_mytemplate`). -/

namespace HfiWebserver.Guest.HtmlTemplate

open HfiWebserver.Lib.ByteStrings HfiWebserver.Lib.Fallible HfiWebserver.Lib.Numeral
open HfiWebserver.Guest HfiWebserver.Guest.Template
open HfiWebserver.Guest.TemplateTree HfiWebserver.Guest.TemplateText

/-! ### The program -/

/-- The source in `main`. -/
def mytemplate : Bytes :=
  lit "\n        This is my \x7b\x7bavalue\x7d\x7d template.  " ++
  lit "It's \x7b\x7bsecondvalue\x7d\x7d..." ++
  lit "\n        Today's weather is \x7b\x7bweather\x7d\x7d." ++
  lit "\n        \x7b% for i in range(its) %\x7da[\x7b\x7bi\x7d\x7d] = image[\x7b\x7bi\x7d\x7d];" ++
  lit "\n        \x7b% endfor %\x7d" ++
  lit "\n        abc\x7b% if its %\x7ddef\x7b% endif %\x7dghi" ++
  lit "\n        This is my \x7b\x7bavalue\x7d\x7d template.  " ++
  lit "It's \x7b\x7bsecondvalue\x7d\x7d..." ++
  lit "\n        Today's weather is \x7b\x7bweather\x7d\x7d." ++
  lit "\n        \x7b% for j in range(32) %\x7db[\x7b\x7bj\x7d\x7d] = image[\x7b\x7bj\x7d\x7d];" ++
  lit "\n        \x7b% endfor %\x7d" ++
  lit "\n        abc\x7b% if its %\x7ddef\x7b% endif %\x7dghi" ++
  lit "\n    "

variable {F : Type}

/-- The values that `main` sets; `secondvalue` is the `float` `12.123f`. -/
def values (secondvalue : F) : ValueMap F := fun name =>
  if name = lit "avalue" then some (.IntValue 3)
  else if name = lit "secondvalue" then some (.FloatValue secondvalue)
  else if name = lit "weather" then some (.StringValue (lit "rain"))
  else if name = lit "its" then some (.IntValue 20)
  else none

/-- `main`; it does not look at its arguments. -/
def main [FloatText F] (secondvalue : F) (_argv : List Bytes) : Option Bytes :=
  (render mytemplate (values secondvalue)).toOption.map Prod.fst

/-! ### The source as a document -/

/-- A word of the source, as a name. -/
def name (s : String) (h : lit s ≠ [] ∧ (lit s).all plain = true ∧
    lit s ≠ lit "not" ∧ lit s ≠ lit "range" := by decide) : Name := ⟨lit s, h.1, h.2.1, h.2.2⟩

/-- A part of the source without marks. -/
def part (s : String) (h : (¬ lit "\x7b\x7b" <:+: lit s ∧ ¬ openTag <:+: lit s) ∧
    ¬ lit "\x7d\x7d" <:+: lit s ∧ (lit s).getLast? ≠ some 123 := by decide +kernel) : Text :=
  ⟨lit s, h.1.1, h.1.2, h.2.1, h.2.2⟩

def var_i : Name := name "i"

def var_j : Name := name "j"

def its : Name := name "its"

/-- A hole without blanks. -/
def hole (n : Name) (t : Text) : Hole := ⟨spaces 0, n, spaces 0, t⟩

/-- Tags with a space at both ends. -/
def spaced (k : Tag) : Written := ⟨k, spaces 1, spaces 1, 1, 1⟩

/-- `This is my {{avalue}} template …`, behind a text. -/
def introduction (first : Text) : Chunk where
  first := first
  holes := [hole (name "avalue") (part " template.  It's "),
    hole (name "secondvalue") (part "...\n        Today's weather is "),
    hole (name "weather") (part ".\n        ")]

/-- The body of a loop. -/
def row (array : Text) (i : Name) : Chunk where
  first := array
  holes := [hole i (part "] = image["), hole i (part "];\n        ")]

/-- Half of the source, with the tags of its sections. -/
def section_with {K : Type} (loop cond : K) (first array : Text) (i : Name) (rest : Doc Chunk K) :
    Doc Chunk K :=
  .block (introduction first) loop (.text (row array i))
    (.block ⟨part "\n        abc", []⟩ cond (.text ⟨part "def", []⟩) rest)

/-- The source of `html_template`, as a document. -/
def document : Doc Chunk Written :=
  section_with (spaced (.range var_i (.named its (by decide)))) (spaced (.cond false its))
    (part "\n        This is my ") (part "a[") var_i <|
  section_with (spaced (.range var_j (.number 32 (by decide)))) (spaced (.cond false its))
    (part "ghi\n        This is my ") (part "b[") var_j <|
  .text ⟨part "ghi\n    ", []⟩

theorem print_document : print document = mytemplate := by decide +kernel

/-! ### The page -/

section

variable [FloatText F]

/-- A line of a loop. -/
def line (array : Bytes) (i : ℕ) : Bytes :=
  array ++ decimal i ++ lit "] = image[" ++ decimal i ++ lit "];\n        "

/-- Half of the page. -/
def half (first : Bytes) (secondvalue : F) (array : Bytes) (n : ℕ) : Bytes :=
  first ++ lit "3 template.  It's " ++ FloatText.toString secondvalue ++
    lit "...\n        Today's weather is rain.\n        " ++
    (List.range n).flatMap (line array) ++ lit "\n        abcdef"

/-- **The page that `html_template` answers with.** -/
def page (secondvalue : F) : Bytes :=
  half (lit "\n        This is my ") secondvalue (lit "a[") 20 ++
    half (lit "ghi\n        This is my ") secondvalue (lit "b[") 32 ++ lit "ghi\n    "

theorem eval_introduction (first : Text) (f : F) : (introduction first).eval (values f) =
    .ok (first.bytes ++ lit "3 template.  It's " ++ FloatText.toString f ++
      lit "...\n        Today's weather is rain.\n        ") := by
  have havalue : fill (values f) (hole (name "avalue") (part " template.  It's ")) =
      .ok (lit "3 template.  It's ") := rfl
  have hsecond : fill (values f)
      (hole (name "secondvalue") (part "...\n        Today's weather is ")) =
      .ok (FloatText.toString f ++ lit "...\n        Today's weather is ") := rfl
  have hweather : fill (values f) (hole (name "weather") (part ".\n        ")) =
      .ok (lit "rain.\n        ") := rfl
  have hline : lit "...\n        Today's weather is rain.\n        " =
      lit "...\n        Today's weather is " ++ lit "rain.\n        " := by decide +kernel
  simp only [introduction, Chunk.eval, List.mapM_cons, List.mapM_nil, havalue, hsecond, hweather,
    ok_bind, pure_eq, map_ok, hline, List.flatten_cons, List.flatten_nil, List.append_nil,
    List.append_assoc]

theorem eval_row (array : Text) (n : Name) (m : ValueMap F) (i : ℕ) :
    (row array n).eval (Function.update m n.text (some (.IntValue (Int.ofNat i)))) =
      .ok (line array.bytes i) := by
  have hnum : Template.toString (Int.ofNat i) = decimal i :=
    if_neg (Int.not_lt.mpr (Int.natCast_nonneg i))
  have hfill : ∀ t : Text,
      fill (Function.update m n.text (some (.IntValue (Int.ofNat i)))) (hole n t) =
        .ok (decimal i ++ t.bytes) := by
    intro t
    simp only [fill, hole, Function.update_self, Value.render, hnum]
  simp only [row, Chunk.eval, List.mapM_cons, List.mapM_nil, hfill, ok_bind, pure_eq, map_ok, line,
    List.flatten_cons, List.flatten_nil, List.append_nil, List.append_assoc]
  rfl

theorem eval_loop (array : Text) (v : Name) (n : ℕ) {m : ValueMap F} (hv : m v.text = none) :
    Control.eval (.forRange v.text n) ((Doc.text (row array v)).eval Chunk.eval) m =
      .ok ((List.range n).flatMap (line array.bytes)) := by
  have hrows : ∀ is : List ℕ, ((is.map Int.ofNat).mapM fun i =>
      (row array v).eval (Function.update m v.text (some (.IntValue i)))) =
        .ok (is.map (line array.bytes)) := by
    intro is
    induction is with
    | nil => rfl
    | cons i is ih =>
      rw [List.map_cons, List.mapM_cons, eval_row, ok_bind, ih]
      rfl
  simp only [Control.eval, hv, Option.isSome_none, Bool.false_eq_true, if_false, Int.toNat_natCast,
    Doc.eval, hrows, map_ok, List.flatMap_def]

/-- Half of the page, before the rest of it. -/
theorem eval_section (f : F) (first array : Text) (i : Name) (n : ℕ) (rest : Doc Chunk Control)
    (hi : values f i.text = none) :
    (section_with (.forRange i.text n) (.ifSection false its.text) first array i rest).eval
        Chunk.eval (values f) =
      (rest.eval Chunk.eval (values f)).map (half first.bytes f array.bytes n ++ ·) := by
  have habc : (⟨part "\n        abc", []⟩ : Chunk).eval (values f) = .ok (lit "\n        abc") := rfl
  have hits : Control.eval (.ifSection false its.text)
      ((Doc.text ⟨part "def", []⟩).eval Chunk.eval) (values f) = .ok (lit "def") := rfl
  have hline : lit "\n        abcdef" = lit "\n        abc" ++ lit "def" := by decide +kernel
  rw [section_with, Doc.eval, eval_introduction, ok_bind, eval_loop array i n hi, ok_bind, Doc.eval,
    habc, ok_bind, hits, ok_bind]
  rcases rest.eval Chunk.eval (values f) with e | text
  · rfl
  · simp only [half, ok_bind, pure_eq, map_ok, hline, List.append_assoc]

theorem render_mytemplate (f : F) : render mytemplate (values f) = .ok (page f, values f) := by
  have hres : resolve (values f) document = .ok
      (section_with (.forRange var_i.text (20 : ℕ)) (.ifSection false its.text)
        (part "\n        This is my ") (part "a[") var_i <|
      section_with (.forRange var_j.text (32 : ℕ)) (.ifSection false its.text)
        (part "ghi\n        This is my ") (part "b[") var_j <|
      .text ⟨part "ghi\n    ", []⟩) := rfl
  rw [← print_document, render_resolved hres]
  rw [eval_section f _ _ var_i 20 _ rfl, eval_section f _ _ var_j 32 _ rfl]
  simp only [Doc.eval, page, List.append_assoc]
  rfl

theorem main_eq (f : F) (argv : List Bytes) : main f argv = some (page f) := by
  rw [main, render_mytemplate]
  rfl

end

end HfiWebserver.Guest.HtmlTemplate
