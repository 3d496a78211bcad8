import HfiWebserver.Guest.XmlParse

/-! # The XML printer of `xml_to_json`

rapidxml prints a tree with or without indentation. What it prints is a text of the grammar, so the
parser reads the tree again (`parse_print`); with indentation this needs text to be the only child
of its element, since the white space around it would become part of it.

A tree has texts the printer cannot make readable: names with other characters, an end mark in a
CDATA section, a NUL, text of white space only, and two texts side by side. -/

namespace HfiWebserver.Guest.XmlPrint

open HfiWebserver.Lib.ByteStrings HfiWebserver.Lib
open HfiWebserver.Guest.Rapidxml HfiWebserver.Guest.XmlGrammar HfiWebserver.Guest.XmlTags
open HfiWebserver.Guest.XmlParse

/-- `copy_and_expand_chars`. -/
def copy_and_expand_chars (noexpand : UInt8) (s : Bytes) : Bytes :=
  s.flatMap fun c =>
    if c = noexpand then [c]
    else if c = 60 then lit "&lt;"
    else if c = 62 then lit "&gt;"
    else if c = 39 then lit "&apos;"
    else if c = 34 then lit "&quot;"
    else if c = 38 then lit "&amp;"
    else [c]

/-- An iteration of `print_attributes`. -/
def print_attribute (attr : Bytes × Bytes) : Bytes :=
  lit " " ++ attr.1 ++ lit "=" ++
    if 34 ∈ attr.2 then lit "'" ++ copy_and_expand_chars 34 attr.2 ++ lit "'"
    else lit "\"" ++ copy_and_expand_chars 39 attr.2 ++ lit "\""

def print_attributes (attributes : List (Bytes × Bytes)) : Bytes :=
  attributes.flatMap print_attribute

section

-- the flag `print_no_indenting` is not set
variable (indenting : Bool)

/-- `fill_chars`, for tabs. -/
def tabs (indent : ℕ) : Bytes := if indenting then List.replicate indent 9 else []

def newline : Bytes := if indenting then [10] else []

mutual

/-- `print_node`, on the nodes that the parser makes. -/
def print_node (indent : ℕ) : Node → Bytes
  | .element name attributes children =>
    tabs indenting indent ++ (lit "<" ++ (name ++ (print_attributes attributes ++
      (match children with
        | [] => lit "/>"
        | [.data value] =>
          lit ">" ++ (copy_and_expand_chars 0 value ++ (lit "</" ++ (name ++ lit ">")))
        | _ => lit ">" ++ (newline indenting ++ (print_children (indent + 1) children ++
          (tabs indenting indent ++ (lit "</" ++ (name ++ lit ">")))))) ++
      newline indenting)))
  | .data value => tabs indenting indent ++ (copy_and_expand_chars 0 value ++ newline indenting)
  | .cdata value =>
    tabs indenting indent ++ (lit "<![CDATA[" ++ (value ++ (lit "]]>" ++ newline indenting)))

def print_children (indent : ℕ) : List Node → Bytes
  | [] => []
  | child :: children => print_node indent child ++ print_children indent children

end

/-- `print`, for a document with these children; the line break is the document's own. -/
def print (nodes : List Node) : Bytes := print_children indenting 0 nodes ++ newline indenting

end

/-! ### What can be printed -/

def IsData : Node → Prop
  | .data _ => True
  | _ => False

/-- The names and values that the printer leaves readable. -/
structure PrintableAttribute (attr : Bytes × Bytes) : Prop where
  ne_nil : attr.1 ≠ []
  name : ∀ c ∈ attr.1, attribute_name_pred c = true
  value : 0 ∉ attr.2

/-- The trees that the printer leaves readable. -/
inductive Printable (indenting : Bool) : Node → Prop
  | data {value : Bytes} : 0 ∉ value → (∃ c ∈ value, whitespace_pred c = false) →
      Printable indenting (.data value)
  | cdata {value : Bytes} : 0 ∉ value → ¬ lit "]]>" <:+: value ++ lit "]]" →
      Printable indenting (.cdata value)
  | element {name : Bytes} {attributes : List (Bytes × Bytes)} {children : List Node} :
      name ≠ [] → name.head? ≠ some 33 → (∀ c ∈ name, element_name_pred c = true) →
      (∀ a ∈ attributes, PrintableAttribute a) → (∀ c ∈ children, Printable indenting c) →
      children.IsChain (fun c d => ¬ (IsData c ∧ IsData d)) →
      (indenting = true → ∀ c ∈ children, IsData c → children = [c]) →
      Printable indenting (.element name attributes children)

/-! ### Values -/

/-- What is expanded spells the value, where the quote does not stand in it. -/
theorem spelled_expand {pred : UInt8 → Bool} {noexpand : UInt8} {v : Bytes}
    (hno : noexpand ≠ 38) (h : ∀ c ∈ v, c = noexpand ∨ c ≠ 60 ∧ c ≠ 62 ∧ c ≠ 39 ∧ c ≠ 34 →
      pred c = true) : Spelled pred v (copy_and_expand_chars noexpand v) := by
  induction v with
  | nil => exact .nil
  | cons c v ih =>
    have hv := ih fun d hd => h d (List.mem_cons_of_mem c hd)
    have hc := h c List.mem_cons_self
    have hexp : copy_and_expand_chars noexpand (c :: v) =
        copy_and_expand_chars noexpand [c] ++ copy_and_expand_chars noexpand v := by
      simp [copy_and_expand_chars]
    rw [hexp]
    unfold copy_and_expand_chars at hv ⊢
    rw [List.flatMap_singleton]
    split_ifs with h0 h60 h62 h39 h34 h38
    · exact .char c (hc (Or.inl h0)) (h0 ▸ hno) hv
    · subst h60
      exact .reference .lt hv
    · subst h62
      exact .reference .gt hv
    · subst h39
      exact .reference .apos hv
    · subst h34
      exact .reference .quot hv
    · subst h38
      exact .reference .amp hv
    · exact .char c (hc (Or.inr ⟨h60, h62, h39, h34⟩)) h38 hv

theorem spelled_text {v : Bytes} (h : 0 ∉ v) :
    Spelled text_pred v (copy_and_expand_chars 0 v) := by
  refine spelled_expand (by decide) fun c hc hno => ?_
  have h0 : c ≠ 0 := fun h' => h (h' ▸ hc)
  have h60 : c ≠ 60 := (hno.resolve_left h0).1
  simp [text_pred, h0, h60]

/-- An attribute is printed with a quote that does not stand in its value as it is. -/
theorem attribute_print {attr : Bytes × Bytes} (h : PrintableAttribute attr) :
    ∃ t, print_attribute attr = 32 :: t ∧ Attribute attr t := by
  obtain ⟨name, v⟩ := attr
  obtain ⟨hne, hname, h0⟩ := h
  have hblank : Blank [] := by simp [Blank]
  have hquote : ∀ {quote : UInt8} (noexpand : UInt8), quote = 39 ∨ quote = 34 → noexpand ≠ 38 →
      (∀ c ∈ v, c = noexpand ∨ c ≠ 60 ∧ c ≠ 62 ∧ c ≠ 39 ∧ c ≠ 34 → c ≠ quote) →
      Attribute (name, v) (name ++ ([] ++ 61 :: ([] ++ quote ::
        (copy_and_expand_chars noexpand v ++ [quote])))) := by
    intro quote noexpand hq hno hall
    refine .mk name hne hname hblank hblank hq (spelled_expand hno fun c hc hx => ?_)
    have hc0 : c ≠ 0 := fun h' => h0 (h' ▸ hc)
    simp [attribute_value_pred, hall c hc hx, hc0]
  have hspace : lit " " = [32] := by decide
  have heq : lit "=" = [61] := by decide
  have hsingle : lit "'" = [39] := by decide
  have hdouble : lit "\"" = [34] := by decide
  unfold print_attribute
  by_cases h34 : 34 ∈ v
  · refine ⟨_, ?_, hquote 34 (Or.inl rfl) (by decide) fun c _ hx => ?_⟩
    · simp [h34, hspace, heq, hsingle]
    · rintro rfl
      simp at hx
  · refine ⟨_, ?_, hquote 39 (Or.inr rfl) (by decide) fun c hc _ => ?_⟩
    · simp [h34, hspace, heq, hdouble]
    · rintro rfl
      exact h34 hc

theorem attributes_print {attributes : List (Bytes × Bytes)}
    (h : ∀ a ∈ attributes, PrintableAttribute a) : ∃ ws t, print_attributes attributes = ws ++ t ∧
      Blank ws ∧ (attributes ≠ [] → ws ≠ []) ∧ Attributes attributes t := by
  induction attributes with
  | nil => exact ⟨[], [], rfl, by simp [Blank], by simp, .nil⟩
  | cons a as ih =>
    obtain ⟨t, ht, ha⟩ := attribute_print (h a List.mem_cons_self)
    obtain ⟨ws, u, hu, hws, -, has⟩ := ih fun b hb => h b (List.mem_cons_of_mem a hb)
    refine ⟨[32], t ++ (ws ++ u), ?_, by simp [Blank, whitespace_pred], by simp, .cons ha hws has⟩
    rw [print_attributes] at hu ⊢
    rw [List.flatMap_cons, hu, ht]
    rfl

/-! ### Nodes -/

theorem blank_tabs (indenting : Bool) (indent : ℕ) : Blank (tabs indenting indent) := by
  intro c hc
  unfold tabs at hc
  split_ifs at hc
  · rw [(List.mem_replicate.mp hc).2]
    rfl
  · cases hc

theorem blank_newline (indenting : Bool) : Blank (newline indenting) := by
  intro c hc
  unfold newline at hc
  split_ifs at hc
  · rw [List.mem_singleton.mp hc]
    rfl
  · cases hc

theorem blank_append {ws ws' : Bytes} (h : Blank ws) (h' : Blank ws') : Blank (ws ++ ws') :=
  List.forall_mem_append.mpr ⟨h, h'⟩

/-- A node that is not text is printed as its markup, with white space around. -/
def Prints (indenting : Bool) (n : Node) : Prop := ¬ IsData n → ∀ indent, ∃ m,
  Markup (some n) m ∧ print_node indenting indent n =
    tabs indenting indent ++ 60 :: (m ++ newline indenting)

section

variable {indenting : Bool}

/-- Text has a character that is not white space, as it is or in a reference. -/
theorem expand_nonblank {v : Bytes} (h : ∃ c ∈ v, whitespace_pred c = false) :
    ∃ c ∈ copy_and_expand_chars 0 v, whitespace_pred c = false := by
  obtain ⟨c, hc, hblank⟩ := h
  have hamp : whitespace_pred 38 = false := rfl
  have hmem : ∀ d, d ∈ copy_and_expand_chars 0 [c] → d ∈ copy_and_expand_chars 0 v := by
    intro d hd
    unfold copy_and_expand_chars at hd ⊢
    rw [List.flatMap_singleton] at hd
    exact List.mem_flatMap.mpr ⟨c, hc, hd⟩
  have hone : ∃ d ∈ copy_and_expand_chars 0 [c], whitespace_pred d = false := by
    unfold copy_and_expand_chars
    rw [List.flatMap_singleton]
    split_ifs
    · exact ⟨c, List.mem_singleton.mpr rfl, hblank⟩
    · exact ⟨38, by decide, hamp⟩
    · exact ⟨38, by decide, hamp⟩
    · exact ⟨38, by decide, hamp⟩
    · exact ⟨38, by decide, hamp⟩
    · exact ⟨38, by decide, hamp⟩
    · exact ⟨c, List.mem_singleton.mpr rfl, hblank⟩
  obtain ⟨d, hd, hd'⟩ := hone
  exact ⟨d, hmem d hd, hd'⟩

theorem contents_print {children : List Node} (h : ∀ c ∈ children, Printable indenting c)
    (hp : ∀ c ∈ children, Prints indenting c)
    (hchain : children.IsChain (fun c d => ¬ (IsData c ∧ IsData d)))
    (hdata : indenting = true → ∀ c ∈ children, ¬ IsData c) {ws ws' : Bytes} (hws : Blank ws)
    (hws' : Blank ws') (hnone : indenting = false → ws = [] ∧ ws' = []) (indent : ℕ) :
    Contents children (ws ++ (print_children indenting indent children ++ ws')) := by
  induction children generalizing ws with
  | nil => exact .nil (blank_append hws hws')
  | cons c children ih =>
    have hmore := fun {ws : Bytes} => @ih (fun d hd => h d (List.mem_cons_of_mem c hd))
      (fun d hd => hp d (List.mem_cons_of_mem c hd)) hchain.of_cons
      (fun hi d hd => hdata hi d (List.mem_cons_of_mem c hd)) ws
    by_cases hc : IsData c
    · -- the text stands alone, since nothing is indented
      have hi : indenting = false := by
        by_contra hi
        exact hdata (by simpa using hi) c List.mem_cons_self hc
      obtain ⟨rfl, rfl⟩ := hnone hi
      subst hi
      cases c with
      | data v =>
        cases h _ List.mem_cons_self with
        | data h0 hne =>
          have hrest := hmore hws fun _ => ⟨rfl, rfl⟩
          rw [List.nil_append, List.append_nil] at hrest
          have htext : [] ++ (print_children false indent (.data v :: children) ++ []) =
              copy_and_expand_chars 0 v ++ print_children false indent children := by
            simp [print_children, print_node, tabs, newline]
          rw [htext]
          refine .data (spelled_text h0) (expand_nonblank hne) ?_ hrest
          rcases children with _ | ⟨d, children⟩
          · exact Or.inl rfl
          · have hd : ¬ IsData d := fun hd => (List.isChain_cons_cons.mp hchain).1 ⟨hc, hd⟩
            obtain ⟨m, -, hm⟩ := hp d (by simp) hd indent
            rw [print_children, hm]
            exact Or.inr rfl
      | _ => exact hc.elim
    · obtain ⟨m, hm, hprint⟩ := hp c List.mem_cons_self hc indent
      have hrest := hmore (blank_newline indenting) fun hi => by
        subst hi
        exact ⟨rfl, (hnone rfl).2⟩
      have htext : ws ++ (print_children indenting indent (c :: children) ++ ws') =
          (ws ++ tabs indenting indent) ++ 60 :: (m ++ (newline indenting ++
            (print_children indenting indent children ++ ws'))) := by
        rw [print_children, hprint]
        simp
      rw [htext]
      exact contents_of_markup (blank_append hws (blank_tabs indenting indent)) hm hrest

theorem end_print {name : Bytes} (hname : ∀ c ∈ name, element_name_pred c = true) :
    EndTag (lit "</" ++ (name ++ lit ">")) := by
  have hopen : lit "</" = [60, 47] := by decide
  have hclose : lit ">" = [62] := by decide
  rw [hopen, hclose]
  have hblank : Blank [] := by simp [Blank]
  exact @EndTag.mk name [] (fun c hc => node_name_of_element (hname c hc)) hblank

/-- Only a single text is printed without the indentation of children. -/
theorem print_element (indent : ℕ) (name : Bytes) (attributes : List (Bytes × Bytes))
    {children : List Node} (hne : children ≠ []) (hd : ∀ v, children ≠ [.data v]) :
    print_node indenting indent (.element name attributes children) =
      tabs indenting indent ++ (lit "<" ++ (name ++ (print_attributes attributes ++
        (lit ">" ++ (newline indenting ++ (print_children indenting (indent + 1) children ++
          (tabs indenting indent ++ (lit "</" ++ (name ++ lit ">"))))) ++ newline indenting)))) := by
  rw [print_node]
  · simp only [List.append_assoc]
  · exact hne
  · exact hd

theorem prints {n : Node} (h : Printable indenting n) : Prints indenting n := by
  have hblank : Blank [] := by simp [Blank]
  have hopen : lit "<" = [60] := by decide
  have hclose : lit ">" = [62] := by decide
  have hempty : lit "/>" = [47, 62] := by decide
  induction h with
  | data => exact fun hd => absurd trivial hd
  | @cdata v h0 hno =>
    intro _ indent
    refine ⟨_, .cdata (.mk v hno), ?_⟩
    rw [print_node]
    simp [show lit "<![CDATA[" = 60 :: lit "![CDATA[" by decide]
  | @element name attributes children hne hhead hname hattrs hcs hchain hdata ih =>
    intro _ indent
    obtain ⟨ws, t, hat, hws, hsep, has⟩ := attributes_print hattrs
    have hstart : StartTag name attributes (name ++ (ws ++ t)) :=
      .mk (.plain name hne hhead hname) hws hsep has
    have hend := end_print hname
    by_cases hnil : children = []
    · subst hnil
      refine ⟨_, .empty hstart, ?_⟩
      rw [print_node, hat, hopen, hempty]
      simp
    · by_cases hd : ∃ v, children = [.data v]
      · obtain ⟨v, rfl⟩ := hd
        cases hcs _ (List.mem_singleton.mpr rfl) with
        | data h0 hblankless =>
          have hcontents := Contents.data (spelled_text h0) (expand_nonblank hblankless)
            (Or.inl rfl) (.nil hblank)
          rw [List.append_nil] at hcontents
          refine ⟨_, .element hstart hcontents hend, ?_⟩
          rw [print_node, hat, hopen, hclose]
          simp
      · have hd' : ∀ v, children ≠ [.data v] := fun v hv => hd ⟨v, hv⟩
        have hplain : indenting = true → ∀ c ∈ children, ¬ IsData c := by
          intro hi c hc hcd
          have hone := hdata hi c hc hcd
          cases c with
          | data v => exact hd' v hone
          | _ => exact hcd.elim
        have hcontents := contents_print hcs ih hchain hplain (blank_newline indenting)
          (blank_tabs indenting indent) (fun hi => by subst hi; exact ⟨rfl, rfl⟩) (indent + 1)
        refine ⟨_, .element hstart hcontents hend, ?_⟩
        rw [print_element indent name attributes hnil hd', hat, hopen, hclose]
        simp

theorem document_print {nodes : List Node} (h : ∀ n ∈ nodes, Printable indenting n ∧ ¬ IsData n)
    {ws ws' : Bytes} (hws : Blank ws) (hws' : Blank ws') :
    Document nodes (ws ++ (print_children indenting 0 nodes ++ ws')) := by
  induction nodes generalizing ws with
  | nil => exact .nil (blank_append hws hws')
  | cons n nodes ih =>
    obtain ⟨hn, hdata⟩ := h n List.mem_cons_self
    obtain ⟨m, hm, hprint⟩ := prints hn hdata 0
    have hrest := ih (fun d hd => h d (List.mem_cons_of_mem n hd)) (blank_newline indenting)
    have htext : ws ++ (print_children indenting 0 (n :: nodes) ++ ws') =
        (ws ++ tabs indenting 0) ++ 60 :: (m ++ (newline indenting ++
          (print_children indenting 0 nodes ++ ws'))) := by
      rw [print_children, hprint]
      simp
    rw [htext]
    exact .markup (blank_append hws (blank_tabs indenting 0)) hm hrest

/-! ### The text as a C string -/

theorem not_mem_blank {ws : Bytes} (h : Blank ws) : (0 : UInt8) ∉ ws := fun h0 =>
  absurd (h 0 h0) (by decide)

theorem not_mem_expand {noexpand : UInt8} {v : Bytes} (h : 0 ∉ v) :
    0 ∉ copy_and_expand_chars noexpand v := by
  intro h0
  obtain ⟨c, hc, hmem⟩ := List.mem_flatMap.mp h0
  have hc0 : ¬ c = 0 := fun h' => h (h' ▸ hc)
  have hlit : ∀ s : String, (lit s).all (· != 0) = true → (0 : UInt8) ∉ lit s := by
    intro s hs h0
    simpa using List.all_eq_true.mp hs 0 h0
  split_ifs at hmem
  · exact hc0 (List.mem_singleton.mp hmem).symm
  · exact hlit _ rfl hmem
  · exact hlit _ rfl hmem
  · exact hlit _ rfl hmem
  · exact hlit _ rfl hmem
  · exact hlit _ rfl hmem
  · exact hc0 (List.mem_singleton.mp hmem).symm

theorem not_mem_attributes {attributes : List (Bytes × Bytes)}
    (h : ∀ a ∈ attributes, PrintableAttribute a) : 0 ∉ print_attributes attributes := by
  intro h0
  obtain ⟨⟨name, v⟩, ha, hmem⟩ := List.mem_flatMap.mp h0
  obtain ⟨-, hname, hv⟩ := h _ ha
  have hname0 : 0 ∉ name := fun h0 => absurd (hname 0 h0) (by decide)
  have hv0 : ∀ q, 0 ∉ copy_and_expand_chars q v := fun q => not_mem_expand hv
  have hspace : lit " " = [32] := by decide
  have heq : lit "=" = [61] := by decide
  have hsingle : lit "'" = [39] := by decide
  have hdouble : lit "\"" = [34] := by decide
  unfold print_attribute at hmem
  split_ifs at hmem
  · simp [hspace, heq, hsingle, hname0, hv0] at hmem
  · simp [hspace, heq, hdouble, hname0, hv0] at hmem

theorem not_mem_children {children : List Node}
    (h : ∀ c ∈ children, ∀ indent, 0 ∉ print_node indenting indent c) (indent : ℕ) :
    0 ∉ print_children indenting indent children := by
  induction children with
  | nil => simp [print_children]
  | cons c children ih =>
    rw [print_children, List.mem_append, not_or]
    exact ⟨h c List.mem_cons_self indent, ih fun d hd => h d (List.mem_cons_of_mem c hd)⟩

theorem not_mem_print {n : Node} (h : Printable indenting n) (indent : ℕ) :
    0 ∉ print_node indenting indent n := by
  have htabs := fun indent => not_mem_blank (blank_tabs indenting indent)
  have hnewline := not_mem_blank (blank_newline indenting)
  have hlit : ∀ s : String, (lit s).all (· != 0) = true → (0 : UInt8) ∉ lit s := by
    intro s hs h0
    simpa using List.all_eq_true.mp hs 0 h0
  induction h generalizing indent with
  | data h0 _ =>
    rw [print_node]
    simp [htabs, hnewline, not_mem_expand h0]
  | cdata h0 _ =>
    rw [print_node]
    simp [htabs, hnewline, h0, hlit "<![CDATA[" rfl, hlit "]]>" rfl]
  | @element name attributes children _ _ hname hattrs hcs _ _ ih =>
    have hname0 : 0 ∉ name := fun h0 => absurd (hname 0 h0) (by decide)
    have hat := not_mem_attributes hattrs
    have hchildren := not_mem_children ih (indent + 1)
    by_cases hnil : children = []
    · subst hnil
      rw [print_node]
      simp [htabs, hnewline, hname0, hat, hlit "<" rfl, hlit "/>" rfl]
    · by_cases hd : ∃ v, children = [.data v]
      · obtain ⟨v, rfl⟩ := hd
        cases hcs _ (List.mem_singleton.mpr rfl) with
        | data h0 _ =>
          rw [print_node]
          simp [htabs, hnewline, hname0, hat, not_mem_expand h0, hlit "<" rfl, hlit ">" rfl,
            hlit "</" rfl]
      · rw [print_element indent name attributes hnil fun v hv => hd ⟨v, hv⟩]
        simp [htabs, hnewline, hname0, hat, hchildren, hlit "<" rfl, hlit ">" rfl,
          hlit "</" rfl]

/-- The text begins with white space or with `<`. -/
theorem bom_print {nodes : List Node} (h : ∀ n ∈ nodes, Printable indenting n ∧ ¬ IsData n) :
    parse_bom (print indenting nodes) = print indenting nodes := by
  refine if_neg fun hbom => ?_
  obtain ⟨h0, -⟩ := hbom
  unfold print at h0
  cases nodes with
  | nil =>
    cases indenting
    · exact absurd (show (0 : UInt8) = 0xEF from h0) (by decide)
    · exact absurd (show (10 : UInt8) = 0xEF from h0) (by decide)
  | cons n nodes =>
    obtain ⟨hn, hdata⟩ := h n List.mem_cons_self
    obtain ⟨m, -, hprint⟩ := prints hn hdata 0
    have htabs : tabs indenting 0 = [] := by cases indenting <;> rfl
    rw [print_children, hprint, htabs] at h0
    exact absurd (show (60 : UInt8) = 0xEF from h0) (by decide)

/-- **The parser reads what the printer wrote**, with or without indentation. -/
theorem parse_print {nodes : List Node} (h : ∀ n ∈ nodes, Printable indenting n ∧ ¬ IsData n) :
    parse (print indenting nodes) = .ok nodes := by
  have h0 : 0 ∉ print indenting nodes := by
    intro h0
    rcases List.mem_append.mp h0 with h0 | h0
    · exact not_mem_children (fun n hn => not_mem_print (h n hn).1) 0 h0
    · exact not_mem_blank (blank_newline indenting) h0
  have hstr : c_str (print indenting nodes) = print indenting nodes := by
    refine List.takeWhile_eq_self_iff.mpr fun c hc => ?_
    rw [bne_iff_ne]
    rintro rfl
    exact h0 hc
  have hblank : Blank [] := by simp [Blank]
  have hdoc := document_print h hblank (blank_newline indenting)
  rw [List.nil_append] at hdoc
  have hparse := parse_document hdoc (Nat.lt_succ_self _)
  rw [parse, hstr, bom_print h]
  exact hparse

end

/-- A tree with marks in its values and a text beside other children, not indented. -/
theorem parse_print_mixed :
    let nodes := [Node.element (lit "a") [(lit "k", lit "\"<'")]
      [.data (lit "x & y"), .element (lit "b") [] [], .cdata (lit "]]")]]
    parse (print false nodes) = .ok nodes := by
  refine parse_print (List.forall_mem_singleton.mpr ⟨?_, id⟩)
  have hk : PrintableAttribute (lit "k", lit "\"<'") :=
    ⟨by decide, List.all_eq_true.mp rfl, by decide⟩
  have hdata : Printable false (.data (lit "x & y")) :=
    .data (by decide) ⟨120, by decide, by decide⟩
  have hb : Printable false (.element (lit "b") [] []) :=
    .element (by decide) (by decide) (List.all_eq_true.mp rfl) (by simp) (by simp) .nil (by simp)
  have hcdata : Printable false (.cdata (lit "]]")) := .cdata (by decide) (by decide)
  refine .element (by decide) (by decide) (List.all_eq_true.mp rfl)
    (List.forall_mem_singleton.mpr hk) ?_ ?_ (by simp)
  · simp only [List.mem_cons, List.not_mem_nil, or_false, forall_eq_or_imp, forall_eq]
    exact ⟨hdata, hb, hcdata⟩
  · simp [IsData]

end HfiWebserver.Guest.XmlPrint
