import HfiWebserver.Guest.XmlMembers
import HfiWebserver.Guest.XmlParse

/-! # The answers of `xml_to_json`

The module answers the documents of the grammar and ends without an answer on every other text
(`main_eq_ok_iff`, `main_eq_error_iff`). What it answers is read back by the JSON library as the
object that the document means (`answer_reads`). -/

namespace HfiWebserver.Guest.XmlAnswer

open HfiWebserver.Lib.ByteStrings HfiWebserver.Lib.Groups HfiWebserver.Lib.Interleave
open HfiWebserver.Guest.Rapidxml HfiWebserver.Guest.Rapidjson HfiWebserver.Guest.RapidjsonRoundTrip
open HfiWebserver.Guest.XmlGrammar HfiWebserver.Guest.XmlParse
open HfiWebserver.Guest.XmlToJson HfiWebserver.Guest.XmlMembers

/-- The member of a child of the document; here a name can come several times. -/
def IsEntry (n : Node) (m : Bytes × Value) : Prop :=
  m.1 = node_name n ∧ xml2json_traverse_node n = some m.2

theorem document_members_eq_some_iff {nodes : List Node} {members : Members} :
    document_members nodes = some members ↔ List.Forall₂ IsEntry nodes members := by
  induction nodes generalizing members with
  | nil =>
    rw [document_members, List.mapM_nil, List.forall₂_nil_left_iff]
    exact ⟨fun h => (Option.some.inj h).symm, fun h => by rw [h]; rfl⟩
  | cons n nodes ih =>
    rw [document_members] at ih ⊢
    rw [List.mapM_cons]
    constructor
    · intro h
      obtain ⟨m, hm, h⟩ := Option.bind_eq_some_iff.mp h
      obtain ⟨ms, hms, h⟩ := Option.bind_eq_some_iff.mp h
      cases h
      obtain ⟨v, hv, rfl⟩ := Option.map_eq_some_iff.mp hm
      exact .cons ⟨rfl, hv⟩ (ih.mp hms)
    · rintro (_ | ⟨⟨hname, hv⟩, htail⟩)
      rename_i m ms
      obtain ⟨name, v⟩ := m
      obtain rfl : name = node_name n := hname
      have hv' : xml2json_traverse_node n = some v := hv
      rw [hv', ih.mpr htail]
      rfl

theorem exists_entries (nodes : List Node) : ∃ members, List.Forall₂ IsEntry nodes members := by
  induction nodes with
  | nil => exact ⟨[], .nil⟩
  | cons n nodes ih =>
    obtain ⟨v, hv⟩ := exists_traverse n
    obtain ⟨members, h⟩ := ih
    exact ⟨(node_name n, v) :: members, .cons ⟨rfl, hv⟩ h⟩

/-- The text of a value is a C string. -/
theorem c_str_text (v : Value) : c_str (text v) = text v := by
  refine List.takeWhile_eq_self_iff.mpr fun d hd => ?_
  have hge := mem_text v d hd
  rw [bne_iff_ne]
  rintro rfl
  exact absurd hge (by decide)

theorem main_of_document {name xml : Bytes} {nodes : List Node} {members : Members}
    (h : Document nodes (parse_bom (c_str xml))) (hm : List.Forall₂ IsEntry nodes members) :
    main [name, xml] = .ok (text (.object members)) := by
  have hparse : parse xml = .ok nodes := parse_document h (Nat.lt_succ_self _)
  rw [main, xml2json, hparse]
  simp only [document_members_eq_some_iff.mpr hm, defined, write_eq]
  show Except.ok (c_str (c_str _)) = _
  rw [c_str_text, c_str_text]

theorem main_of_not_document {name xml : Bytes}
    (h : ∀ nodes, ¬ Document nodes (parse_bom (c_str xml))) :
    main [name, xml] = .error .abort := by
  rw [main, xml2json]
  rcases hparse : parse xml with e | nodes
  · obtain rfl : e = .parse_error := faultsIn_parse xml e hparse
    rfl
  · exact absurd (of_parse_nodes (not_mem_bom (not_mem_c_str xml)) hparse) (h nodes)

theorem of_main_eq_ok {name xml answer : Bytes} (h : main [name, xml] = .ok answer) :
    ∃ nodes members, Document nodes (parse_bom (c_str xml)) ∧
      List.Forall₂ IsEntry nodes members ∧ answer = text (.object members) := by
  by_cases hdoc : ∃ nodes, Document nodes (parse_bom (c_str xml))
  · obtain ⟨nodes, hnodes⟩ := hdoc
    obtain ⟨members, hm⟩ := exists_entries nodes
    rw [main_of_document hnodes hm] at h
    cases h
    exact ⟨nodes, members, hnodes, hm, rfl⟩
  · rw [main_of_not_document fun nodes hn => hdoc ⟨nodes, hn⟩] at h
    cases h

/-- **The module answers exactly the documents**, each with the text of its object. -/
theorem main_eq_ok_iff {name xml answer : Bytes} : main [name, xml] = .ok answer ↔
    ∃ nodes members, Document nodes (parse_bom (c_str xml)) ∧
      List.Forall₂ IsEntry nodes members ∧ answer = text (.object members) := by
  constructor
  · exact of_main_eq_ok
  · rintro ⟨nodes, members, hnodes, hm, rfl⟩
    exact main_of_document hnodes hm

/-- **Without an answer the module aborts**: it never reads a member that is not there, no assertion
of the writer fails, and the parser ends. -/
theorem main_eq_error_iff {argv : List Bytes} {e : XmlToJson.Fault} : main argv = .error e ↔
    e = .abort ∧ ∀ name xml, argv = [name, xml] →
      ∀ nodes, ¬ Document nodes (parse_bom (c_str xml)) := by
  by_cases hargv : ∃ name xml, argv = [name, xml]
  · obtain ⟨name, xml, rfl⟩ := hargv
    by_cases hdoc : ∃ nodes, Document nodes (parse_bom (c_str xml))
    · obtain ⟨nodes, hnodes⟩ := hdoc
      obtain ⟨members, hm⟩ := exists_entries nodes
      rw [main_of_document hnodes hm]
      refine iff_of_false nofun ?_
      rintro ⟨-, h⟩
      exact h name xml rfl nodes hnodes
    · have hno : ∀ nodes, ¬ Document nodes (parse_bom (c_str xml)) := fun n hn => hdoc ⟨n, hn⟩
      rw [main_of_not_document hno]
      constructor
      · rintro ⟨⟩
        refine ⟨rfl, ?_⟩
        rintro _ _ ⟨⟩
        exact hno
      · rintro ⟨rfl, -⟩
        rfl
  · have hmain : main argv = .error .abort := by
      unfold main
      split
      · exact absurd ⟨_, _, rfl⟩ hargv
      · rfl
    rw [hmain]
    constructor
    · rintro ⟨⟩
      exact ⟨rfl, fun name xml h => absurd ⟨name, xml, h⟩ hargv⟩
    · rintro ⟨rfl, -⟩
      rfl

/-- The leaves of the members are the texts of the document. -/
theorem memberLeaves_entries {nodes : List Node} {members : Members}
    (h : List.Forall₂ IsEntry nodes members) :
    members.map Prod.fst = nodes.map node_name ∧
      (memberLeaves members).Perm (children_texts nodes) := by
  induction h with
  | nil => exact ⟨rfl, .refl _⟩
  | @cons n m nodes members hm _ ih =>
    obtain ⟨k, v⟩ := m
    obtain ⟨hname, hv⟩ := hm
    refine ⟨?_, (traverse_leaves hv).append ih.2⟩
    rw [List.map_cons, List.map_cons, ih.1, ← hname]

/-- **No text of a document is lost, and none is added**: the JSON library reads the answer as an
object with a member for each element of the document, and the texts in it are those of the
document, each as often. -/
theorem answer_leaves {xml : Bytes} {nodes : List Node}
    (h : Document nodes (parse_bom (c_str xml))) (name : Bytes)
    (other : Bytes → Except ParseErrorCode (List Event × Bytes)) :
    ∃ answer events members, main [name, xml] = .ok answer ∧ Parse other answer = .ok events ∧
      run build [] events = some [.object members] ∧
      members.map Prod.fst = nodes.map node_name ∧
      (memberLeaves members).Perm (children_texts nodes) := by
  obtain ⟨members, hm⟩ := exists_entries nodes
  exact ⟨_, _, members, main_of_document h hm, Parse_text other _, run_build _ [],
    memberLeaves_entries hm⟩

/-- An element whose texts stand around another one. -/
theorem answer_leaves_mixed : ∃ answer events members,
    main [[], lit "<a k='1'>x<b/>y</a>"] = .ok answer ∧
      Parse (fun _ => .error .ValueInvalid) answer = .ok events ∧
      run build [] events = some [.object members] ∧
      members.map Prod.fst = [lit "a"] ∧
      (memberLeaves members).Perm [lit "1", lit "x", lit "y"] := by
  have hdoc : Document [.element (lit "a") [(lit "k", lit "1")]
      [.data (lit "x"), .element (lit "b") [] [], .data (lit "y")]]
        (parse_bom (c_str (lit "<a k='1'>x<b/>y</a>"))) :=
    of_parse_nodes (not_mem_bom (not_mem_c_str _)) (n := 20) (by with_unfolding_all rfl)
  exact answer_leaves hdoc [] _

/-- What a document means. -/
def document_json (nodes : List Node) : Value := .object (nodes.map fun n => (node_name n, json n))

theorem same_document {nodes : List Node} (h : ∀ n ∈ nodes, Distinct n) :
    ∃ members, List.Forall₂ IsEntry nodes members ∧
      Same (.object members) (document_json nodes) := by
  have hall : ∃ members, List.Forall₂ IsEntry nodes members ∧ List.Forall₂ (Alike Same) members
      (nodes.map fun n => (node_name n, json n)) := by
    induction nodes with
    | nil => exact ⟨[], .nil, .nil⟩
    | cons n nodes ih =>
      obtain ⟨v, hv, hsame⟩ := traverse_same (h n List.mem_cons_self)
      obtain ⟨members, hm, halike⟩ := ih fun m hm => h m (List.mem_cons_of_mem n hm)
      exact ⟨(node_name n, v) :: members, .cons ⟨rfl, hv⟩ hm, .cons ⟨rfl, hsame⟩ halike⟩
  obtain ⟨members, hm, halike⟩ := hall
  exact ⟨members, hm, same_object (.refl _) halike⟩

/-- **A document is answered with what it means**: the JSON library reads the answer as that object,
but for the order of the members. -/
theorem answer_reads {xml : Bytes} {nodes : List Node}
    (h : Document nodes (parse_bom (c_str xml))) (hd : ∀ n ∈ nodes, Distinct n) (name : Bytes)
    (other : Bytes → Except ParseErrorCode (List Event × Bytes)) :
    ∃ answer events v, main [name, xml] = .ok answer ∧ Parse other answer = .ok events ∧
      run build [] events = some [v] ∧ Same v (document_json nodes) := by
  obtain ⟨members, hm, hsame⟩ := same_document hd
  exact ⟨_, _, _, main_of_document h hm, Parse_text other _, run_build _ [], hsame⟩

/-- An element with two children of one name. -/
theorem answer_reads_array : ∃ answer events v,
    main [[], lit "<a k='1'><b/><b>x</b></a>"] = .ok answer ∧
      Parse (fun _ => .error .ValueInvalid) answer = .ok events ∧
      run build [] events = some [v] ∧ Same v (.object [(lit "a", .object
        [(lit "@k", .string (lit "1")), (lit "b", .array [.null, .string (lit "x")])])]) := by
  have hdoc : Document [.element (lit "a") [(lit "k", lit "1")]
      [.element (lit "b") [] [], .element (lit "b") [] [.data (lit "x")]]]
        (parse_bom (c_str (lit "<a k='1'><b/><b>x</b></a>"))) :=
    of_parse_nodes (not_mem_bom (not_mem_c_str _)) (n := 26) (by with_unfolding_all rfl)
  refine answer_reads hdoc (List.forall_mem_singleton.mpr ?_) [] _
  refine .element (by decide) ?_
  simp only [List.mem_cons, List.not_mem_nil, or_false, forall_eq_or_imp, forall_eq]
  refine ⟨.element (by simp) (by simp), .element (by simp [attribute_members,
    xml2json_add_attributes]) (List.forall_mem_singleton.mpr (.data _))⟩

end HfiWebserver.Guest.XmlAnswer
