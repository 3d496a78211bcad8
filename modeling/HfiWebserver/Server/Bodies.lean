import HfiWebserver.Server.Requests

/-! # Request bodies at the limit

`from_data` reads the first `LIMIT` bytes of a body and does not look for more. A longer body whose
cut is UTF-8 is taken for the whole; one whose cut splits a character fails, like every body that is
not UTF-8.

`no_truncation_iff`: a guest of a `POST` route is run with the whole decoded body, or not at all,
exactly when the body fits the limit or its first `LIMIT` bytes are not UTF-8. -/

namespace HfiWebserver.Server.Bodies

open HfiWebserver.Lib.ByteStrings HfiWebserver.Server.World HfiWebserver.Server.WasmModule
open HfiWebserver.Server.Handlers HfiWebserver.Server.Requests

variable {ε : Type}

/-! ### The guard -/

theorem from_data_eq_success {b : Bytes} {s : StringCopy} (h : from_data b = .success s) :
    s.string = b.take LIMIT ∧ Valid (b.take LIMIT) := by
  simp only [from_data] at h
  split at h
  · next hv => cases h; exact ⟨rfl, hv⟩
  · simp at h

theorem from_data_of_valid {b : Bytes} (h : Valid (b.take LIMIT)) :
    from_data b = .success ⟨b.take LIMIT, h⟩ := by simp [from_data, h]

/-- What a decoded body is: the decoding of the first `LIMIT` bytes, both UTF-8. -/
theorem decode_eq_ok {rt : Runtime ε} {b text : Bytes} (h : decode rt b = .ok text) :
    Valid (b.take LIMIT) ∧ text = rt.percent_decode_str (b.take LIMIT) ∧ Valid text := by
  unfold decode at h
  rcases hd : from_data b with s | status
  · obtain ⟨hs, hv⟩ := from_data_eq_success hd
    simp only [hd, hs] at h
    split_ifs at h with ht
    cases h
    exact ⟨hv, rfl, ht⟩
  · simp [hd] at h

/-! ### The requests of a body -/

/-- The body of a `POST` request is the second argument of its guest. -/
theorem input_of_body (rt : Runtime ε) {r : Request} {b : Bytes} (hr : r.body = some b) :
    (∃ e, decode rt b = .error e ∧ input_of rt r = .error e) ∨
    ∃ text input, decode rt b = .ok text ∧ input_of rt r = .ok input ∧ input[1]? = some text := by
  cases r with
  | msghash_check_c body hash p =>
    obtain rfl : body = b := by simpa [Request.body] using hr
    rcases hd : decode rt body with e | text
    · exact Or.inl ⟨e, rfl, by simp [input_of, hd, Except.map]⟩
    · exact Or.inr ⟨text, [[], text, hash], rfl, by simp [input_of, hd, Except.map], rfl⟩
  | xml_to_json body p =>
    obtain rfl : body = b := by simpa [Request.body] using hr
    rcases hd : decode rt body with e | text
    · exact Or.inl ⟨e, rfl, by simp [input_of, hd, Except.map]⟩
    · exact Or.inr ⟨text, [[], text], rfl, by simp [input_of, hd, Except.map], rfl⟩
  | _ => simp [Request.body] at hr

/-- The request fails, and runs no guest. -/
def FailsBeforeRun (rt : Runtime ε) (dir : Bytes) (r : Request) (h : Host) : Prop :=
  (∃ f, (outcome (handle rt dir r h)).1 = .error f) ∧ (outcome (handle rt dir r h)).2.runs = h.runs

/-- **No silent truncation of `b`**: the guard succeeds with all of `b` only; the guest of a request
with the body `b` has the decoding of all of `b` as its argument; and what cannot be such an
argument makes the request fail before a guest is run. -/
structure NoTruncation (rt : Runtime ε) (dir b : Bytes) : Prop where
  whole : ∀ s, from_data b = .success s → s.string = b
  runs : ∀ (r : Request) (h : Host), r.body = some b →
    ∃ new, (outcome (handle rt dir r h)).2.runs = h.runs ++ new ∧
      ∀ inst ∈ new, inst.wasi_ctx.args[1]? = some (rt.percent_decode_str b)
  fails : ∀ (r : Request) (h : Host), r.body = some b →
    ¬ Valid b ∨ ¬ Valid (rt.percent_decode_str b) ∨ 0 ∈ rt.percent_decode_str b ∨ LIMIT < b.length →
      FailsBeforeRun rt dir r h

theorem fails_of_decode {rt : Runtime ε} {dir b : Bytes} {r : Request} {e : Error ε} (h : Host)
    (hr : r.body = some b) (hd : decode rt b = .error e) : FailsBeforeRun rt dir r h := by
  rcases input_of_body rt hr with ⟨e', -, hi⟩ | ⟨text, input, hd', -⟩
  · simp [FailsBeforeRun, handle_apply, hi]
  · rw [hd] at hd'
    simp at hd'

/-- What a decoded body comes to: a run with it as the argument, which has no NUL, or a failure. -/
theorem runs_of_decode {rt : Runtime ε} (dir : Bytes) {b text : Bytes} {r : Request} (h : Host)
    (hr : r.body = some b) (hd : decode rt b = .ok text) :
    (∃ inst, (outcome (handle rt dir r h)).2.runs = h.runs ++ [inst] ∧
      inst.wasi_ctx.args[1]? = some text ∧ 0 ∉ text) ∨ FailsBeforeRun rt dir r h := by
  rcases input_of_body rt hr with ⟨e, hd', -⟩ | ⟨text', input, hd', hi, htext⟩
  · rw [hd] at hd'
    simp at hd'
  · obtain rfl : text = text' := by
      rw [hd] at hd'
      simpa using hd'
    unfold FailsBeforeRun
    rw [handle_apply, hi]
    rcases serve_runs rt dir r.endpoint r.protection input r.file_access h with
      ⟨inst, h', hc, hruns⟩ | ⟨-, hruns, hf⟩
    · obtain ⟨-, -, hargs, hnul⟩ := of_create_wasm_instance hc
      refine Or.inl ⟨inst, hruns, by rw [hargs, htext], hnul text ?_⟩
      exact List.mem_of_getElem? htext
    · exact Or.inr ⟨hf, hruns⟩

/-- **A body is not truncated exactly when** it fits the limit, or is not UTF-8 up to it. -/
theorem no_truncation_iff (rt : Runtime ε) (dir b : Bytes) :
    NoTruncation rt dir b ↔ b.length ≤ LIMIT ∨ ¬ Valid (b.take LIMIT) := by
  constructor
  · intro hN
    by_cases hv : Valid (b.take LIMIT)
    · left
      have hwhole := hN.whole _ (from_data_of_valid hv)
      exact List.take_eq_self_iff b |>.mp hwhole
    · exact Or.inr hv
  · intro hb
    -- a body that decodes fits the limit, so what was decoded is all of it
    have hfit : ∀ text, decode rt b = .ok text →
        b.take LIMIT = b ∧ text = rt.percent_decode_str b ∧ Valid text := by
      intro text hd
      obtain ⟨hv, htext, hvt⟩ := decode_eq_ok hd
      have hlen : b.length ≤ LIMIT := hb.resolve_right (not_not.mpr hv)
      have htake := List.take_of_length_le hlen
      exact ⟨htake, by rw [htext, htake], hvt⟩
    refine ⟨fun s hs => ?_, fun r h hr => ?_, fun r h hr hbad => ?_⟩
    · obtain ⟨hs, hv⟩ := from_data_eq_success hs
      rw [hs]
      exact List.take_of_length_le (hb.resolve_right (not_not.mpr hv))
    · rcases hd : decode rt b with e | text
      · exact ⟨[], by simp [(fails_of_decode h hr hd).2], by simp⟩
      · rcases runs_of_decode dir h hr hd with ⟨inst, hruns, harg, -⟩ | hf
        · refine ⟨[inst], hruns, fun i hi => ?_⟩
          rw [List.mem_singleton.mp hi, harg, (hfit text hd).2.1]
        · exact ⟨[], by simp [hf.2], by simp⟩
    · rcases hd : decode rt b with e | text
      · exact fails_of_decode h hr hd
      · obtain ⟨htake, rfl, hvt⟩ := hfit text hd
        rcases runs_of_decode dir h hr hd with ⟨inst, -, -, h0⟩ | hf
        · obtain ⟨hv, -, -⟩ := decode_eq_ok hd
          have hlen := List.take_eq_self_iff b |>.mp htake
          rw [htake] at hv
          rcases hbad with h1 | h1 | h1 | h1
          · exact absurd hv h1
          · exact absurd hvt h1
          · exact absurd h1 h0
          · omega
        · exact hf

/-- One byte more than the limit: the guard answers the first `LIMIT` bytes. -/
theorem long_body_truncated :
    (∃ s, from_data (List.replicate (LIMIT + 1) 97) = .success s ∧ s.string.length = LIMIT) ∧
    ¬ NoTruncation (obliging someGuest) (lit "modules") (List.replicate (LIMIT + 1) 97) := by
  have htake : (List.replicate (LIMIT + 1) (97 : UInt8)).take LIMIT = List.replicate LIMIT 97 := by
    rw [List.take_replicate, Nat.min_eq_left (Nat.le_succ LIMIT)]
  have hv : Valid ((List.replicate (LIMIT + 1) (97 : UInt8)).take LIMIT) := by
    rw [htake]
    exact valid_replicate (by decide) LIMIT
  have hs := from_data_of_valid hv
  have hlen : ((List.replicate (LIMIT + 1) (97 : UInt8)).take LIMIT).length = LIMIT := by
    rw [htake, List.length_replicate]
  refine ⟨⟨_, hs, hlen⟩, fun hN => ?_⟩
  have hwhole := congrArg List.length (hN.whole _ hs)
  rw [show List.length _ = LIMIT from hlen, List.length_replicate] at hwhole
  omega

end HfiWebserver.Server.Bodies
