import HfiWebserver.Guest.XmlGrammar
import Mathlib.Data.List.TakeWhile

/-! # How the XML parser reads values

`skip_and_expand_character_refs` reads a text as a value exactly when the text spells the value, up
to the character that ends it: `expand_append` and `of_expand`. -/

namespace HfiWebserver.Guest.XmlValue

open HfiWebserver.Lib.ByteStrings HfiWebserver.Lib.Fallible
open HfiWebserver.Lib
open HfiWebserver.Guest.Rapidxml HfiWebserver.Guest.XmlGrammar
open HfiWebserver.Server.StringResults (insert_coded_character)

/-! ### Runs of characters -/

section

variable {pred : UInt8 → Bool} {l r text : Bytes}

theorem ch_cons_zero (c : UInt8) (t : Bytes) : ch (c :: t) 0 = c := rfl

theorem skip_of_not (hr : pred (ch r 0) = false) : skip pred r = r := by
  cases r with
  | nil => rfl
  | cons c r => exact List.dropWhile_cons_of_neg (by simpa [ch] using hr)

theorem takeWhile_of_not (hr : pred (ch r 0) = false) : r.takeWhile pred = [] := by
  cases r with
  | nil => rfl
  | cons c r => exact List.takeWhile_cons_of_neg (by simpa [ch] using hr)

theorem skip_append (hl : ∀ c ∈ l, pred c = true) (hr : pred (ch r 0) = false) :
    skip pred (l ++ r) = r := by
  have h := skip_of_not hr
  rw [skip] at h ⊢
  rw [List.dropWhile_append_of_pos hl, h]

theorem takeWhile_append (hl : ∀ c ∈ l, pred c = true) (hr : pred (ch r 0) = false) :
    (l ++ r).takeWhile pred = l := by
  rw [List.takeWhile_append_of_pos hl, takeWhile_of_not hr, List.append_nil]

/-- What a run is, and where it ends. -/
theorem skip_spec (pred : UInt8 → Bool) (text : Bytes) (h0 : pred 0 = false) :
    text = text.takeWhile pred ++ skip pred text ∧ (∀ c ∈ text.takeWhile pred, pred c = true) ∧
      pred (ch (skip pred text) 0) = false := by
  refine ⟨List.takeWhile_append_dropWhile.symm, fun c hc => List.mem_takeWhile_imp hc, ?_⟩
  rcases hs : skip pred text with _ | ⟨c, t⟩
  · exact h0
  · have hhead := List.head_dropWhile_not (p := pred) (l := text) (by rw [skip] at hs; simp [hs])
    rw [skip] at hs
    rw [ch_cons_zero]
    simpa [hs] using hhead

end

/-! ### Values -/

theorem numeric_append {base : UInt32} {digits dest : Bytes}
    (hd : ∀ c ∈ digits, isDigit c = true)
    (hdest : insert_coded_character false (code base digits) = some dest) (rest : Bytes) :
    numeric base (digits ++ (lit ";" ++ rest)) = .ok (dest, rest) := by
  have hstop : isDigit (ch (lit ";" ++ rest) 0) = false := rfl
  have h59 : ch (lit ";" ++ rest) 0 = 59 := rfl
  rw [numeric, takeWhile_append hd hstop, skip_append hd hstop, hdest]
  simp only [h59, if_true]
  rfl

/-- A reference is expanded. -/
theorem reference_append {dest r : Bytes} (h : Reference dest r) (rest : Bytes) :
    reference (r ++ rest) = .ok (some (dest, rest)) := by
  cases h with
  | hexadecimal digits dest hd hdest =>
    have hlit : lit "&#x" = [38, 35, 120] := by decide
    have hnum : reference (38 :: 35 :: 120 :: (digits ++ (lit ";" ++ rest))) =
        (numeric 16 (digits ++ (lit ";" ++ rest))).map some := rfl
    rw [hlit, List.append_assoc, List.append_assoc, List.cons_append, List.cons_append,
      List.singleton_append, hnum, numeric_append hd hdest, map_ok]
  | decimal digits dest hd hdest =>
    have hlit : lit "&#" = [38, 35] := by decide
    have hx : ∀ c t, c ≠ 120 → reference (38 :: 35 :: c :: t) = (numeric 10 (c :: t)).map some := by
      intro c t hc
      have hpre : (lit "&#x").isPrefixOf (38 :: 35 :: c :: t) = false := by
        have hlit3 : lit "&#x" = [38, 35, 120] := by decide
        simp [hlit3, List.isPrefixOf, Ne.symm hc]
      unfold reference
      rw [hpre]
      rfl
    have hnum : reference (38 :: 35 :: (digits ++ (lit ";" ++ rest))) =
        (numeric 10 (digits ++ (lit ";" ++ rest))).map some := by
      cases digits with
      | nil => exact hx 59 rest (by decide)
      | cons c ds =>
        refine hx c _ ?_
        rintro rfl
        exact absurd (hd 120 List.mem_cons_self) (by decide)
    rw [hlit, List.append_assoc, List.append_assoc, List.cons_append, List.singleton_append, hnum,
      numeric_append hd hdest, map_ok]
  | _ => rfl

theorem eq_of_isPrefixOf {p src : Bytes} (h : p.isPrefixOf src = true) :
    src = p ++ src.drop p.length := by
  obtain ⟨t, rfl⟩ := List.isPrefixOf_iff_prefix.mp h
  rw [List.drop_left]

theorem of_numeric {base : UInt32} {src dest rest : Bytes}
    (h : numeric base src = .ok (dest, rest)) : ∃ digits, src = digits ++ (lit ";" ++ rest) ∧
      (∀ c ∈ digits, isDigit c = true) ∧
      insert_coded_character false (code base digits) = some dest := by
  obtain ⟨hsrc, hd, -⟩ := skip_spec isDigit src rfl
  rw [numeric] at h
  split at h
  · cases h
  · next dest' hdest =>
    split_ifs at h with h59
    cases h
    refine ⟨_, ?_, hd, hdest⟩
    rcases hs : skip isDigit src with _ | ⟨c, t⟩
    · rw [hs] at h59
      exact absurd h59 (by decide)
    · rw [hs, ch_cons_zero] at h59
      rw [hs, h59] at hsrc
      exact hsrc

/-- What is expanded is a reference. -/
theorem of_reference {src dest rest : Bytes} (h : reference src = .ok (some (dest, rest))) :
    ∃ r, src = r ++ rest ∧ Reference dest r := by
  unfold reference at h
  split_ifs at h with h1 h2 h3 h4 h5 h6 h7
  · cases h
    exact ⟨_, eq_of_isPrefixOf h1, .amp⟩
  · cases h
    exact ⟨_, eq_of_isPrefixOf h2, .apos⟩
  · cases h
    exact ⟨_, eq_of_isPrefixOf h3, .quot⟩
  · cases h
    exact ⟨_, eq_of_isPrefixOf h4, .gt⟩
  · cases h
    exact ⟨_, eq_of_isPrefixOf h5, .lt⟩
  · obtain ⟨x, hx, heq⟩ := map_eq_ok.mp h
    cases heq
    obtain ⟨digits, hsrc, hd, hdest⟩ := of_numeric hx
    have hpre : src = lit "&#x" ++ src.drop 3 := eq_of_isPrefixOf h6
    refine ⟨_, ?_, .hexadecimal digits dest hd hdest⟩
    rw [hpre, hsrc]
    simp only [List.append_assoc]
  · obtain ⟨x, hx, heq⟩ := map_eq_ok.mp h
    cases heq
    obtain ⟨digits, hsrc, hd, hdest⟩ := of_numeric hx
    have hpre : src = lit "&#" ++ src.drop 2 := eq_of_isPrefixOf h7
    refine ⟨_, ?_, .decimal digits dest hd hdest⟩
    rw [hpre, hsrc]
    simp only [List.append_assoc]
  · cases h

/-- A `&` is copied exactly where no reference begins. -/
theorem reference_eq_none_iff {src : Bytes} :
    reference src = .ok none ↔ ∀ p ∈ openings, ¬ p <+: src := by
  have hx : lit "&#x" <+: src → lit "&#" <+: src := (List.prefix_append (lit "&#") (lit "x")).trans
  have hnumeric : ∀ base s, (numeric base s).map some ≠ .ok (none : Option (Bytes × Bytes)) := by
    intro base s h
    obtain ⟨x, -, hx⟩ := map_eq_ok.mp h
    cases hx
  simp only [openings, List.forall_mem_cons, List.not_mem_nil, false_implies, implies_true,
    and_true]
  simp only [← List.isPrefixOf_iff_prefix] at hx ⊢
  unfold reference
  constructor
  · intro h
    split_ifs at h with h1 h2 h3 h4 h5 h6 h7
    · cases h
    · cases h
    · cases h
    · cases h
    · cases h
    · exact absurd h (hnumeric _ _)
    · exact absurd h (hnumeric _ _)
    · exact ⟨h1, h2, h3, h4, h5, h7⟩
  · rintro ⟨h1, h2, h3, h4, h5, h7⟩
    rw [if_neg h1, if_neg h2, if_neg h3, if_neg h4, if_neg h5, if_neg fun h6 => h7 (hx h6),
      if_neg h7]
    rfl

/-! ### Translation -/

section

variable {pred : UInt8 → Bool} {v t rest src : Bytes}

/-- No reference goes over the end of a value. -/
theorem opening_append_iff (hstop : ∀ p ∈ openings, ∀ c ∈ p, pred c = true)
    (hrest : pred (ch rest 0) = false) {p : Bytes} (hp : p ∈ openings) :
    p <+: t ++ rest ↔ p <+: t := by
  rcases rest with _ | ⟨c, rest⟩
  · rw [List.append_nil]
  · refine prefix_append_cons_iff fun hc => ?_
    rw [ch_cons_zero, hstop p hp c hc] at hrest
    cases hrest

theorem head_opening {p : Bytes} (hp : p ∈ openings) : ∃ q, p = 38 :: q := by
  simp only [openings, List.mem_cons, List.not_mem_nil, or_false] at hp
  rcases hp with rfl | rfl | rfl | rfl | rfl | rfl <;> exact ⟨_, rfl⟩

theorem head_reference {dest r : Bytes} (h : Reference dest r) : ∃ q, r = 38 :: q := by
  cases h <;> exact ⟨_, rfl⟩

theorem translate_spelled (hstop : ∀ p ∈ openings, ∀ c ∈ p, pred c = true)
    (hrest : pred (ch rest 0) = false) (h : Spelled pred v t) {n : ℕ} (hn : t.length < n) :
    translation_loop pred n (t ++ rest) = .ok (v, rest) := by
  have hamp : pred 38 = true := hstop (lit "&#") (by simp [openings]) 38 (by decide)
  induction h generalizing n with
  | nil =>
    obtain ⟨n, rfl⟩ : ∃ k, n = k + 1 := ⟨n - 1, by omega⟩
    rw [List.nil_append, translation_loop, if_neg (by simp [hrest])]
    rfl
  | @char c v t hc hne _ ih =>
    obtain ⟨n, rfl⟩ : ∃ k, n = k + 1 := ⟨n - 1, by omega⟩
    rw [List.length_cons] at hn
    have hnone : reference (c :: (t ++ rest)) = .ok none := by
      refine reference_eq_none_iff.mpr fun p hp hpre => ?_
      obtain ⟨q, rfl⟩ := head_opening hp
      exact hne (List.cons_prefix_cons.mp hpre).1.symm
    rw [List.cons_append, translation_loop, ch_cons_zero, if_pos hc, hnone]
    simp only [ok_bind, List.drop_succ_cons, List.drop_zero, ih (n := n) (by omega), pure_eq]
  | @ampersand v t hno _ ih =>
    obtain ⟨n, rfl⟩ : ∃ k, n = k + 1 := ⟨n - 1, by omega⟩
    rw [List.length_cons] at hn
    have hnone : reference (38 :: t ++ rest) = .ok none := by
      refine reference_eq_none_iff.mpr fun p hp hpre => hno p hp ?_
      exact (opening_append_iff hstop hrest hp).mp hpre
    rw [List.cons_append] at hnone ⊢
    rw [translation_loop, ch_cons_zero, if_pos hamp, hnone]
    simp only [ok_bind, List.drop_succ_cons, List.drop_zero, ih (n := n) (by omega), pure_eq]
  | @reference dest r v t hr _ ih =>
    obtain ⟨n, rfl⟩ : ∃ k, n = k + 1 := ⟨n - 1, by omega⟩
    have href := reference_append hr (t ++ rest)
    obtain ⟨q, rfl⟩ := head_reference hr
    rw [List.length_append, List.length_cons] at hn
    rw [List.cons_append] at href
    rw [List.append_assoc, List.cons_append, translation_loop, ch_cons_zero, if_pos hamp, href]
    simp only [ok_bind, ih (n := n) (by omega), pure_eq]

theorem of_translation_loop (h0 : pred 0 = false) {n : ℕ}
    (h : translation_loop pred n src = .ok (v, rest)) :
    ∃ t, src = t ++ rest ∧ Spelled pred v t ∧ pred (ch rest 0) = false := by
  induction n generalizing src v with
  | zero => cases h
  | succ n ih =>
    rw [translation_loop] at h
    split_ifs at h with hp
    · obtain ⟨c, s, rfl⟩ : ∃ c s, src = c :: s := by
        rcases src with _ | ⟨c, s⟩
        · exact absurd hp (by simp [ch, h0])
        · exact ⟨c, s, rfl⟩
      rw [ch_cons_zero] at hp
      obtain ⟨_ | ⟨dest, src'⟩, href, h⟩ := bind_eq_ok.mp h
      · obtain ⟨⟨more, src'⟩, hmore, h⟩ := bind_eq_ok.mp h
        cases h
        obtain ⟨t, ht, hspell, hrest⟩ := ih hmore
        have hno := reference_eq_none_iff.mp href
        rw [List.drop_succ_cons, List.drop_zero] at ht
        subst ht
        refine ⟨c :: t, rfl, ?_, hrest⟩
        by_cases hc : c = 38
        · subst hc
          refine .ampersand (fun p hmem hpre => hno p hmem (hpre.trans ?_)) hspell
          exact List.prefix_append (38 :: t) rest
        · exact .char c hp hc hspell
      · obtain ⟨⟨more, src''⟩, hmore, h⟩ := bind_eq_ok.mp h
        cases h
        obtain ⟨t, rfl, hspell, hrest⟩ := ih hmore
        obtain ⟨r, hr, hrefer⟩ := of_reference href
        exact ⟨r ++ t, by rw [hr, List.append_assoc], .reference hrefer hspell, hrest⟩
    · cases h
      exact ⟨[], rfl, .nil, by simpa using hp⟩

end

section

variable {pred : UInt8 → Bool} {v t rest text : Bytes}

theorem spelled_run {l : Bytes} (hl : ∀ c ∈ l, pure_pred pred c = true)
    (h : Spelled pred v t) : Spelled pred (l ++ v) (l ++ t) := by
  induction l with
  | nil => exact h
  | cons c l ih =>
    have hc : pred c = true ∧ c ≠ 38 := by simpa [pure_pred] using hl c List.mem_cons_self
    exact .char c hc.1 hc.2 (ih fun d hd => hl d (List.mem_cons_of_mem c hd))

/-- The part of a value before its first `&`. -/
theorem exists_run (h : Spelled pred v t) (hrest : pred (ch rest 0) = false) :
    ∃ l v' t', v = l ++ v' ∧ t = l ++ t' ∧ (∀ c ∈ l, pure_pred pred c = true) ∧
      Spelled pred v' t' ∧ pure_pred pred (ch (t' ++ rest) 0) = false := by
  induction h with
  | nil => exact ⟨[], [], [], rfl, rfl, by simp, .nil, by simp [pure_pred, hrest]⟩
  | @char c v t hc hne _ ih =>
    obtain ⟨l, v', t', rfl, rfl, hl, hspell, hhead⟩ := ih
    refine ⟨c :: l, v', t', rfl, rfl, fun d hd => ?_, hspell, hhead⟩
    rcases List.mem_cons.mp hd with rfl | hd
    · simp [pure_pred, hc, hne]
    · exact hl d hd
  | @ampersand v t hno h _ =>
    exact ⟨[], _, _, rfl, rfl, by simp, .ampersand hno h, by simp [pure_pred, ch]⟩
  | @reference dest r v t hr h _ =>
    obtain ⟨q, rfl⟩ := head_reference hr
    exact ⟨[], _, _, rfl, rfl, by simp, .reference hr h, by simp [pure_pred, ch]⟩

/-- **A spelling is read as its value.** -/
theorem expand_append (hstop : ∀ p ∈ openings, ∀ c ∈ p, pred c = true)
    (h : Spelled pred v t) (hrest : pred (ch rest 0) = false) :
    skip_and_expand_character_refs pred (t ++ rest) = .ok (v, rest) := by
  obtain ⟨l, v', t', rfl, rfl, hl, hspell, hhead⟩ := exists_run h hrest
  have htrans := translate_spelled hstop hrest hspell (n := (t' ++ rest).length + 1)
    (by rw [List.length_append]; omega)
  rw [skip_and_expand_character_refs, List.append_assoc, skip_append hl hhead,
    takeWhile_append hl hhead, htrans]
  rfl

theorem of_expand (h0 : pred 0 = false)
    (h : skip_and_expand_character_refs pred text = .ok (v, rest)) :
    ∃ t, text = t ++ rest ∧ Spelled pred v t ∧ pred (ch rest 0) = false := by
  have hpure : pure_pred pred 0 = false := by simp [pure_pred, h0]
  obtain ⟨htext, hl, -⟩ := skip_spec (pure_pred pred) text hpure
  obtain ⟨⟨dest, src⟩, htrans, h⟩ := bind_eq_ok.mp h
  cases h
  obtain ⟨t, ht, hspell, hrest⟩ := of_translation_loop h0 htrans
  exact ⟨_, by rw [List.append_assoc, ← ht]; exact htext, spelled_run hl hspell, hrest⟩

end

end HfiWebserver.Guest.XmlValue
