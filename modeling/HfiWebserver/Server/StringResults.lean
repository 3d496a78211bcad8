import HfiWebserver.Server.Threads

/-! # Strings from guests

`server_module_string_result` takes the bytes of the guest for a `String` without a check
(`from_utf8_unchecked`), and the handlers answer with that `String`. So the strings of a run are
UTF-8 exactly when the guests' are: `strings_valid_iff`, over all interleavings of the threads. The
bodies of requests do not matter, and nothing turns other bytes into an error.

`insert_coded_character` is the writer of numeric character references of the XML parser in
`xml_to_json`; it writes a surrogate as three bytes, which are not UTF-8. -/

namespace HfiWebserver.Server.StringResults

open HfiWebserver.Lib.Interleave HfiWebserver.Lib.ByteStrings
open HfiWebserver.Server.Hostcalls HfiWebserver.Server.World HfiWebserver.Server.Handlers
open HfiWebserver.Server.Threads

variable {ε : Type}

/-- A `ModuleResult` whose string, if any, is UTF-8. -/
def ValidResult : ModuleResult → Prop
  | .string s => Valid s
  | _ => True

/-- A step that hands UTF-8 to `server_module_string_result`, or none at all. -/
def ValidAct : Act ε → Prop
  | .call ⟨.string, b⟩ => Valid b
  | _ => True

/-- **The strings of a worker are UTF-8**: the one in its cell, and those it answered; and a request
whose guest handed over other bytes as a string got an error. -/
structure StringsValid (w : Worker ε) : Prop where
  cell : ValidResult w.cell
  answers : ∀ r ∈ w.log, r.endpoint.expects = .string → ∀ body, r.answer = .ok body → Valid body
  refused : ∀ r ∈ w.log, ∀ i b calls stop, r.guest = .ok (i, ⟨calls, stop⟩) →
    (⟨.string, b⟩ : Hostcall) ∈ calls → ¬ Valid b → ∃ f, r.answer = .error f

theorem validResult_of_hostcall {c : Hostcall} (h : ValidAct (.call c : Act ε)) :
    ValidResult c.result := by
  obtain ⟨kind, payload⟩ := c
  cases kind with
  | byteArray => trivial
  | string => exact h

/-- A step changes the cell only by a hostcall or by a reset. -/
theorem step_cell {w w' : Worker ε} {a : Act ε} (h : step w a = some w') :
    w'.cell = w.cell ∨ w'.cell = .none ∨ ∃ c, a = .call c ∧ w'.cell = c.result := by
  cases step_cases h with
  | call cell log e i calls c => exact Or.inr (Or.inr ⟨c, rfl, rfl⟩)
  | reset cell log e c => exact Or.inr (Or.inl rfl)
  | clear cell log e i calls body => exact Or.inr (Or.inl rfl)
  | _ => exact Or.inl rfl

theorem step_valid {w w' : Worker ε} {a : Act ε} (hv : ValidResult w.cell) (ha : ValidAct a)
    (h : step w a = some w') : ValidResult w'.cell := by
  rcases step_cell h with hc | hc | ⟨c, rfl, hc⟩
  · rw [hc]; exact hv
  · rw [hc]; trivial
  · rw [hc]; exact validResult_of_hostcall ha

theorem run_valid {w w' : Worker ε} {as : List (Act ε)} (hw : ValidResult w.cell)
    (has : ∀ a ∈ as, ValidAct a) (h : run step w as = some w') : ValidResult w'.cell := by
  refine run_inv (I := fun bs w1 => (∀ a ∈ bs, ValidAct a) → ValidResult w1.cell)
    (fun _ => hw) ?_ h has
  intro bs w1 a w2 hI hs hall
  exact step_valid (hI fun b hb => hall b (by simp [hb])) (hall a (by simp)) hs

/-- The hostcalls of an answered request are steps of its thread. -/
theorem call_mem_acts {e : Endpoint} {i : InstanceHandle} {calls : List Hostcall} {stop : Stop ε}
    {c : Hostcall} (hc : c ∈ calls) : .call c ∈ acts e (.ok (i, ⟨calls, stop⟩)) := by
  simp [acts, hc]

theorem call_mem_steps {as : List (Act ε)} {w : Worker ε} (hI : Inv as w) {r : Served ε}
    (hr : r ∈ w.log) {i : InstanceHandle} {calls : List Hostcall} {stop : Stop ε}
    (hg : r.guest = .ok (i, ⟨calls, stop⟩)) {c : Hostcall} (hc : c ∈ calls) : .call c ∈ as := by
  rw [hI.history]
  refine List.mem_append_left _ (List.mem_flatMap.mpr ⟨r, hr, ?_⟩)
  rw [hg]
  exact call_mem_acts hc

/-- In a worker whose steps are all valid, the strings are. -/
theorem stringsValid_of_acts {as : List (Act ε)} {w : Worker ε} (hI : Inv as w)
    (hcell : ValidResult w.cell) (has : ∀ a ∈ as, ValidAct a) : StringsValid w := by
  refine ⟨hcell, fun r hr he body hb => ?_, fun r hr i b calls stop hg hmem hbad => ?_⟩
  · rw [hI.answers r hr] at hb
    obtain ⟨i, calls, hg, hlast⟩ := isolated_eq_ok hb
    have hv := has _ (call_mem_steps hI hr hg (List.mem_of_getLast? hlast))
    rw [he] at hv
    exact hv
  · exact absurd (has _ (call_mem_steps hI hr hg hmem)) hbad

variable {Tid : Type}

/-- The threads of a server that starts: no request, and `None` in every cell. -/
def Fresh (s : Tid → Worker ε) : Prop := ∀ t, s t = ⟨.none, .idle, []⟩

theorem Fresh.idle {s : Tid → Worker ε} (hs : Fresh s) : Idle s := fun t => by
  rw [hs t]
  exact ⟨rfl, rfl⟩

variable [DecidableEq Tid]

/-- A string handed over in a run is in the cell of its thread in the state right after. -/
theorem cell_of_call {s s' : Tid → Worker ε} {as bs : List (Tid × Act ε)} {t : Tid} {c : Hostcall}
    (h : run (stepAt step) s (as ++ (t, .call c) :: bs) = some s') :
    ∃ s1, run (stepAt step) s (as ++ [(t, .call c)]) = some s1 ∧ (s1 t).cell = c.result := by
  rw [run_append, Option.bind_eq_some_iff] at h
  obtain ⟨s0, h0, h⟩ := h
  rw [run_cons, Option.bind_eq_some_iff] at h
  obtain ⟨s1, h1, -⟩ := h
  refine ⟨s1, run_trans h0 (by rw [run_cons, h1]; rfl), ?_⟩
  obtain ⟨w, hw, rfl⟩ := stepAt_eq_some.mp h1
  rw [Function.update_self]
  rcases hpc : (s0 t).pc with _ | _ | _ | _ | _ | _ | _ <;> simp [step, hpc] at hw
  rw [← hw]

/-- **Every string of a run is UTF-8, in every state, exactly when those of the guests are.** -/
theorem strings_valid_iff {s s' : Tid → Worker ε} {as : List (Tid × Act ε)} (hs : Fresh s)
    (h : run (stepAt step) s as = some s') :
    (∀ bs, bs <+: as → ∀ s1, run (stepAt step) s bs = some s1 → ∀ t, StringsValid (s1 t)) ↔
      ∀ t b, (t, .call ⟨.string, b⟩) ∈ as → Valid b := by
  constructor
  · intro hv t b hmem
    obtain ⟨xs, ys, rfl⟩ := List.append_of_mem hmem
    obtain ⟨s1, h1, hcell⟩ := cell_of_call h
    have hprefix : xs ++ [(t, .call ⟨.string, b⟩)] <+: xs ++ (t, .call ⟨.string, b⟩) :: ys :=
      ⟨ys, by simp⟩
    have hvalid := (hv _ hprefix s1 h1 t).cell
    rw [hcell] at hvalid
    exact hvalid
  · intro hall bs hbs s1 h1 t
    have hacts : ∀ a ∈ own t bs, ValidAct a := by
      intro a ha
      have hmem := hbs.subset (mem_own.mp ha)
      unfold ValidAct
      split
      · exact hall t _ hmem
      · trivial
    refine stringsValid_of_acts (inv_of_run hs.idle h1 t) ?_ hacts
    refine run_valid ?_ hacts (run_stepAt h1 t)
    rw [hs t]
    trivial

/-! ### A guest that hands over a surrogate -/

/-- `insert_coded_character`, on the code of a numeric character reference; `none` is its parse
error. -/
def insert_coded_character (parse_no_utf8 : Bool) (code : UInt32) : Option Bytes :=
  if parse_no_utf8 then some [code.toUInt8]
  else if code < 0x80 then some [code.toUInt8]
  else if code < 0x800 then
    some [((code >>> 6) ||| 0xC0).toUInt8, ((code ||| 0x80) &&& 0xBF).toUInt8]
  else if code < 0x10000 then
    some [((code >>> 12) ||| 0xE0).toUInt8, (((code >>> 6) ||| 0x80) &&& 0xBF).toUInt8,
      ((code ||| 0x80) &&& 0xBF).toUInt8]
  else if code < 0x110000 then
    some [((code >>> 18) ||| 0xF0).toUInt8, (((code >>> 12) ||| 0x80) &&& 0xBF).toUInt8,
      (((code >>> 6) ||| 0x80) &&& 0xBF).toUInt8, ((code ||| 0x80) &&& 0xBF).toUInt8]
  else none

/-- An instance of `xml_to_json` for the body `<a>&#xD800;</a>`. -/
def xmlInstance : InstanceHandle :=
  ⟨⟨lit "modules/xml_to_json_stock.so", false, 0⟩, WasmModule.limits_for 0,
    ⟨[[], lit "<a>&#xD800;</a>"], []⟩, lit "stock"⟩

/-- One request, whose guest hands over `b`. -/
def xmlRequest (b : Bytes) : List (Unit × Act Unit) :=
  [((), .request .xml_to_json), ((), .create (.ok xmlInstance)), ((), .reset), ((), .propagate),
    ((), .call ⟨.string, b⟩), ((), .stop .returned), ((), .read), ((), .clear)]

def freshWorker : Unit → Worker Unit := fun _ => ⟨.none, .idle, []⟩

theorem strings_valid_iff_ascii : ∃ s', run (stepAt step) freshWorker (xmlRequest (lit "null")) =
    some s' ∧ StringsValid (s' ()) := by
  have hs : Fresh freshWorker := fun _ => rfl
  have hrun : run (stepAt step) freshWorker (xmlRequest (lit "null")) = some _ := rfl
  refine ⟨_, hrun, (strings_valid_iff hs hrun).mpr (fun t b hmem => ?_) _ List.prefix_rfl _ hrun ()⟩
  obtain rfl : b = lit "null" := by simpa [xmlRequest] using hmem
  decide

/-- **The reference `&#xD800;` makes the server answer a `String` that is not UTF-8.** -/
theorem surrogate_answered : ∃ b s', insert_coded_character false 0xD800 = some b ∧
    run (stepAt step) freshWorker (xmlRequest (lit "\x7b\"a\":\"" ++ b ++ lit "\"\x7d")) = some s' ∧
    (s' ()).log.map Served.answer = [.ok (lit "\x7b\"a\":\"" ++ b ++ lit "\"\x7d")] ∧
    ¬ StringsValid (s' ()) := by
  refine ⟨[0xED, 0xA0, 0x80], _, by decide, rfl, rfl, fun hv => ?_⟩
  have hanswer := hv.answers _ (List.mem_singleton.mpr rfl) rfl _ rfl
  exact absurd hanswer (by decide)

end HfiWebserver.Server.StringResults
