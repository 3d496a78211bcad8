import HfiWebserver.Lib.Interleave
import HfiWebserver.Server.Handlers

/-! # Worker threads

A worker thread serves one request after another, in small steps: it creates an instance, resets its
`CURRENT_RESULT` cell, propagates an error of the creation, runs the guest, reads the cell and
resets it again. What the environment chooses is in the labels (`Act`): the request, the outcome of
the creation, the hostcalls of the guest and how it ends. The cell stays as it is on every early
return and every panic. Threads run side by side by `Interleave.stepAt`; a thread starts with any
value in its cell.

* `Served.acts`: the steps a request took; `Inv.history` splits a thread's steps into them;
* `isolated`: the answer of a request as a function of its own instance;
* `response_isolation`: every answer is that one, in every interleaving;
* `serve_run`: the handlers' common part is a run of this machine. -/

namespace HfiWebserver.Server.Threads

open HfiWebserver.Lib.Interleave HfiWebserver.Lib.ByteStrings
open HfiWebserver.Server.Hostcalls HfiWebserver.Server.World HfiWebserver.Server.WasmModule
open HfiWebserver.Server.Handlers

variable {ε : Type}

/-- What the creation and the run of an instance came to: a fault, or what the instance did. -/
abbrev Guest (ε : Type) := Except (Fault ε) (InstanceHandle × Behaviour ε)

/-- The steps of a worker. -/
inductive Act (ε : Type)
  | request (e : Endpoint)
  | create (c : Except (Fault ε) InstanceHandle)
  | reset
  | propagate
  | call (c : Hostcall)
  | stop (s : Stop ε)
  | read
  | clear

/-- Where a worker is in a handler, with the handler's local values and the hostcalls of its
instance. -/
inductive Pc (ε : Type)
  | idle
  | start (e : Endpoint)
  | made (e : Endpoint) (c : Except (Error ε) InstanceHandle)
  | ready (e : Endpoint) (c : Except (Error ε) InstanceHandle)
  | running (e : Endpoint) (i : InstanceHandle) (calls : List Hostcall)
  | stopped (e : Endpoint) (i : InstanceHandle) (calls : List Hostcall)
  | taken (e : Endpoint) (i : InstanceHandle) (calls : List Hostcall) (body : Bytes)

/-- A request that was answered. -/
structure Served (ε : Type) where
  endpoint : Endpoint
  guest : Guest ε
  answer : Except (Fault ε) Bytes

/-- A worker thread: its `CURRENT_RESULT`, its position, and the requests it has answered. -/
structure Worker (ε : Type) where
  cell : ModuleResult
  pc : Pc ε
  log : List (Served ε)

/-- Answers the request. -/
def Worker.finish (w : Worker ε) (e : Endpoint) (g : Guest ε) (a : Except (Fault ε) Bytes) :
    Worker ε := { w with pc := .idle, log := w.log ++ [⟨e, g, a⟩] }

/-- **One step of a worker.** -/
def step (w : Worker ε) (a : Act ε) : Option (Worker ε) :=
  match w.pc, a with
  | .idle, .request e => some { w with pc := .start e }
  | .start e, .create (.ok i) => some { w with pc := .made e (.ok i) }
  | .start e, .create (.error (.err x)) => some { w with pc := .made e (.error x) }
  | .start e, .create (.error (.panic p)) =>
    some (w.finish e (.error (.panic p)) (.error (.panic p)))
  | .made e c, .reset => some { w with cell := .none, pc := .ready e c }
  | .ready e (.error x), .propagate => some (w.finish e (.error (.err x)) (.error (.err x)))
  | .ready e (.ok i), .propagate => some { w with pc := .running e i [] }
  | .running e i calls, .call c =>
    some { w with cell := c.result, pc := .running e i (calls ++ [c]) }
  | .running e i calls, .stop (.err x) =>
    some (w.finish e (.ok (i, ⟨calls, .err x⟩)) (.error (.err (.external x))))
  | .running e i calls, .stop .yielded =>
    some (w.finish e (.ok (i, ⟨calls, .yielded⟩)) (.error (.panic .yielded)))
  | .running e i calls, .stop .returned => some { w with pc := .stopped e i calls }
  | .stopped e i calls, .read =>
    match payload_of e.expects w.cell with
    | some body => some { w with pc := .taken e i calls body }
    | none =>
      some (w.finish e (.ok (i, ⟨calls, .returned⟩)) (.error (.panic .unexpected_response)))
  | .taken e i calls body, .clear =>
    some (Worker.finish { w with cell := .none } e (.ok (i, ⟨calls, .returned⟩)) (.ok body))
  | _, _ => none

/-- **What a step does**, one case for each. -/
inductive Step : Worker ε → Act ε → Worker ε → Prop
  | request (cell log e) : Step ⟨cell, .idle, log⟩ (.request e) ⟨cell, .start e, log⟩
  | created (cell log e i) :
    Step ⟨cell, .start e, log⟩ (.create (.ok i)) ⟨cell, .made e (.ok i), log⟩
  | failed (cell log e x) :
    Step ⟨cell, .start e, log⟩ (.create (.error (.err x))) ⟨cell, .made e (.error x), log⟩
  | panicked (cell log e p) : Step ⟨cell, .start e, log⟩ (.create (.error (.panic p)))
      (Worker.finish ⟨cell, .start e, log⟩ e (.error (.panic p)) (.error (.panic p)))
  | reset (cell log e c) : Step ⟨cell, .made e c, log⟩ .reset ⟨.none, .ready e c, log⟩
  | propagated (cell log e x) : Step ⟨cell, .ready e (.error x), log⟩ .propagate
      (Worker.finish ⟨cell, .ready e (.error x), log⟩ e (.error (.err x)) (.error (.err x)))
  | started (cell log e i) :
    Step ⟨cell, .ready e (.ok i), log⟩ .propagate ⟨cell, .running e i [], log⟩
  | call (cell log e i calls c) : Step ⟨cell, .running e i calls, log⟩ (.call c)
      ⟨c.result, .running e i (calls ++ [c]), log⟩
  | trapped (cell log e i calls x) : Step ⟨cell, .running e i calls, log⟩ (.stop (.err x))
      (Worker.finish ⟨cell, .running e i calls, log⟩ e (.ok (i, ⟨calls, .err x⟩))
        (.error (.err (.external x))))
  | yielded (cell log e i calls) : Step ⟨cell, .running e i calls, log⟩ (.stop .yielded)
      (Worker.finish ⟨cell, .running e i calls, log⟩ e (.ok (i, ⟨calls, .yielded⟩))
        (.error (.panic .yielded)))
  | returned (cell log e i calls) :
    Step ⟨cell, .running e i calls, log⟩ (.stop .returned) ⟨cell, .stopped e i calls, log⟩
  | read (cell log e i calls body) (h : payload_of e.expects cell = some body) :
    Step ⟨cell, .stopped e i calls, log⟩ .read ⟨cell, .taken e i calls body, log⟩
  | unexpected (cell log e i calls) (h : payload_of e.expects cell = none) :
    Step ⟨cell, .stopped e i calls, log⟩ .read
      (Worker.finish ⟨cell, .stopped e i calls, log⟩ e (.ok (i, ⟨calls, .returned⟩))
        (.error (.panic .unexpected_response)))
  | clear (cell log e i calls body) : Step ⟨cell, .taken e i calls body, log⟩ .clear
      (Worker.finish ⟨.none, .taken e i calls body, log⟩ e (.ok (i, ⟨calls, .returned⟩)) (.ok body))

theorem step_cases {w w' : Worker ε} {a : Act ε} (h : step w a = some w') : Step w a w' := by
  obtain ⟨cell, pc, log⟩ := w
  simp only [step] at h
  split at h
  case h_12 e i calls =>
    split at h
    · next body hp => cases h; exact .read _ _ _ _ _ _ hp
    · next hp => cases h; exact .unexpected _ _ _ _ _ hp
  case h_14 => simp at h
  all_goals cases h; constructor

/-! ### One request alone -/

/-- **The answer of a request as a function of its own instance.** -/
def isolated (e : Endpoint) : Guest ε → Except (Fault ε) Bytes
  | .error f => .error f
  | .ok (_, ⟨_, .err x⟩) => .error (.err (.external x))
  | .ok (_, ⟨_, .yielded⟩) => .error (.panic .yielded)
  | .ok (_, ⟨calls, .returned⟩) =>
    match payload_of e.expects (after .none calls) with
    | some body => .ok body
    | none => .error (.panic .unexpected_response)

/-- The steps up to the run of the guest. -/
def prologue (e : Endpoint) (i : InstanceHandle) : List (Act ε) :=
  [.request e, .create (.ok i), .reset, .propagate]

/-- The steps after the guest returned. -/
def epilogue (e : Endpoint) (calls : List Hostcall) : List (Act ε) :=
  match payload_of e.expects (after .none calls) with
  | some _ => [.read, .clear]
  | none => [.read]

/-- The steps a request takes. -/
def acts (e : Endpoint) : Guest ε → List (Act ε)
  | .error (.panic p) => [.request e, .create (.error (.panic p))]
  | .error (.err x) => [.request e, .create (.error (.err x)), .reset, .propagate]
  | .ok (i, ⟨calls, s⟩) => prologue e i ++ calls.map .call ++ .stop s ::
    match s with
    | .returned => epilogue e calls
    | _ => []

/-- The steps of the request being served. -/
def Pc.acts : Pc ε → List (Act ε)
  | .idle => []
  | .start e => [.request e]
  | .made e c => [.request e, .create (c.mapError .err)]
  | .ready e c => [.request e, .create (c.mapError .err), .reset]
  | .running e i calls => prologue e i ++ calls.map .call
  | .stopped e i calls => prologue e i ++ calls.map .call ++ [.stop .returned]
  | .taken e i calls _ => prologue e i ++ calls.map .call ++ [.stop .returned, .read]

/-- An answer `Ok(body)` is the last hostcall of the own instance, of the expected kind. -/
theorem isolated_eq_ok {e : Endpoint} {g : Guest ε} {body : Bytes} (h : isolated e g = .ok body) :
    ∃ i calls, g = .ok (i, ⟨calls, .returned⟩) ∧ calls.getLast? = some ⟨e.expects, body⟩ := by
  rcases g with f | ⟨i, calls, _ | _ | x⟩
  · simp [isolated] at h
  · refine ⟨i, calls, rfl, payload_of_eq_some.mp ?_⟩
    rcases hp : payload_of e.expects (after .none calls) with _ | b
    · simp [isolated, hp] at h
    · simpa [isolated, hp] using h
  · simp [isolated] at h
  · simp [isolated] at h

/-- The answer does not depend on the instance beyond what it did. -/
theorem isolated_congr {e : Endpoint} {g g' : Guest ε}
    (h : g.map Prod.snd = g'.map Prod.snd) : isolated e g = isolated e g' := by
  rcases g with f | ⟨i, b⟩ <;> rcases g' with f' | ⟨i', b'⟩
  · simp only [Except.map, Except.error.injEq] at h
    rw [h]
  · simp [Except.map] at h
  · simp [Except.map] at h
  · simp only [Except.map, Except.ok.injEq] at h
    subst h
    rcases b with ⟨calls, _ | _ | x⟩ <;> rfl

/-! ### Runs of one worker -/

/-- The cell belongs to the running instance from the reset on. Before, it may hold anything. -/
def Pc.CellOk (cell : ModuleResult) : Pc ε → Prop
  | .ready _ _ => cell = .none
  | .running _ _ calls => cell = after .none calls
  | .stopped _ _ calls => cell = after .none calls
  | .taken e _ calls body => payload_of e.expects (after .none calls) = some body
  | _ => True

/-- **The invariant of a worker**, after the steps `as`. -/
structure Inv (as : List (Act ε)) (w : Worker ε) : Prop where
  history : as = w.log.flatMap (fun r => acts r.endpoint r.guest) ++ w.pc.acts
  cell : w.pc.CellOk w.cell
  answers : ∀ r ∈ w.log, r.answer = isolated r.endpoint r.guest

/-- Answering keeps the invariant when the answer and the steps are the request's own. -/
theorem Inv.finish {as : List (Act ε)} {w : Worker ε} (hI : Inv as w) {a : Act ε} {e : Endpoint}
    {g : Guest ε} {x : Except (Fault ε) Bytes} (hacts : w.pc.acts ++ [a] = acts e g)
    (hx : x = isolated e g) (cell : ModuleResult) :
    Inv (as ++ [a]) (Worker.finish { w with cell := cell } e g x) := by
  refine ⟨?_, trivial, ?_⟩
  · rw [hI.history, List.append_assoc, hacts]
    simp [Worker.finish, Pc.acts]
  · intro r hr
    rcases List.mem_append.mp hr with hr | hr
    · exact hI.answers r hr
    · rw [List.mem_singleton.mp hr]
      exact hx

/-- A step inside a handler keeps the invariant. -/
theorem Inv.move {as : List (Act ε)} {w : Worker ε} (hI : Inv as w) {a : Act ε}
    {cell : ModuleResult} {pc : Pc ε} (hacts : w.pc.acts ++ [a] = pc.acts)
    (hcell : pc.CellOk cell) : Inv (as ++ [a]) ⟨cell, pc, w.log⟩ :=
  ⟨by rw [hI.history, List.append_assoc, hacts], hcell, hI.answers⟩

theorem step_inv {as : List (Act ε)} {w w' : Worker ε} {a : Act ε} (hI : Inv as w)
    (h : step w a = some w') : Inv (as ++ [a]) w' := by
  have hc := hI.cell
  cases step_cases h with
  | request cell log e => exact hI.move rfl trivial
  | created cell log e i => exact hI.move rfl trivial
  | failed cell log e x => exact hI.move rfl trivial
  | panicked cell log e p => exact hI.finish rfl rfl cell
  | reset cell log e c => exact hI.move rfl rfl
  | propagated cell log e x => exact hI.finish rfl rfl cell
  | started cell log e i => exact hI.move rfl hc
  | call cell log e i calls c =>
    exact hI.move (by simp [Pc.acts]) (by simp [Pc.CellOk, after_append])
  | trapped cell log e i calls x => exact hI.finish (by simp [Pc.acts, acts]) rfl cell
  | yielded cell log e i calls => exact hI.finish (by simp [Pc.acts, acts]) rfl cell
  | returned cell log e i calls => exact hI.move (by simp [Pc.acts]) hc
  | read cell log e i calls body hp =>
    have hcell : cell = after .none calls := hc
    rw [hcell] at hp
    exact hI.move (by simp [Pc.acts]) hp
  | unexpected cell log e i calls hp =>
    have hcell : cell = after .none calls := hc
    rw [hcell] at hp
    exact hI.finish (by simp [Pc.acts, acts, epilogue, hp]) (by simp [isolated, hp]) cell
  | clear cell log e i calls body =>
    have hp : payload_of e.expects (after .none calls) = some body := hc
    exact hI.finish (by simp [Pc.acts, acts, epilogue, hp]) (by simp [isolated, hp]) _

/-- **A run of one worker**, from an idle one with any value in its cell. -/
theorem run_inv_of_idle {w w' : Worker ε} {as : List (Act ε)} (hpc : w.pc = .idle)
    (hlog : w.log = []) (h : run step w as = some w') : Inv as w' := by
  refine run_inv (I := Inv) ?_ (fun bs w1 a w2 hI hs => step_inv hI hs) h
  exact ⟨by rw [hlog, hpc]; rfl, by rw [hpc]; trivial, by simp [hlog]⟩

/-! ### Every behaviour is a run -/

theorem run_calls (e : Endpoint) (i : InstanceHandle) (log : List (Served ε)) :
    ∀ (cs calls : List Hostcall), run step ⟨after .none calls, .running e i calls, log⟩
      (cs.map .call) = some ⟨after .none (calls ++ cs), .running e i (calls ++ cs), log⟩
  | [], calls => by simp
  | c :: cs, calls => by
    have ih := run_calls e i log cs (calls ++ [c])
    rw [after_append, List.append_assoc, List.singleton_append] at ih
    rw [List.map_cons, run_cons]
    exact ih

/-- The cell after a request: stale after a panic and after an error of the guest. -/
def left (cell : ModuleResult) (e : Endpoint) : Guest ε → ModuleResult
  | .error (.panic _) => cell
  | .error (.err _) => .none
  | .ok (_, ⟨calls, .returned⟩) =>
    match payload_of e.expects (after .none calls) with
    | some _ => .none
    | none => after .none calls
  | .ok (_, ⟨calls, _⟩) => after .none calls

/-- **A request can take its steps**, whatever the cell holds, and gets its own answer. -/
theorem run_acts (cell : ModuleResult) (log : List (Served ε)) (e : Endpoint) (g : Guest ε) :
    run step ⟨cell, .idle, log⟩ (acts e g) =
      some ⟨left cell e g, .idle, log ++ [⟨e, g, isolated e g⟩]⟩ := by
  rcases g with (x | p) | ⟨i, calls, s⟩
  · rfl
  · rfl
  · have hpro : run step ⟨cell, .idle, log⟩ (prologue e i) =
        some ⟨.none, .running e i [], log⟩ := rfl
    have hcalls := run_trans hpro (run_calls e i log calls [])
    cases s with
    | returned =>
      rcases hp : payload_of e.expects (after .none calls) with _ | body
      all_goals
        refine run_trans hcalls ?_
        simp [epilogue, hp, step, left, isolated, Worker.finish]
    | yielded => exact run_trans hcalls rfl
    | err x => exact run_trans hcalls rfl

theorem isolated_ok (e : Endpoint) (i : InstanceHandle) (b : Behaviour ε) :
    isolated e (.ok (i, b)) = answer_of e b := by
  rcases b with ⟨calls, _ | _ | x⟩ <;> rfl

theorem left_ok (cell : ModuleResult) (e : Endpoint) (i : InstanceHandle) (b : Behaviour ε) :
    left cell e (.ok (i, b)) = cell_of e b := by
  rcases b with ⟨calls, _ | _ | x⟩
  · rcases hp : payload_of e.expects (after .none calls) with _ | body <;>
      simp [left, cell_of, answer_of, hp]
  · rfl
  · rfl

/-- What the creation and the run of an instance come to under a runtime. -/
def guest_of (rt : Runtime ε) (c : Except (Fault ε) InstanceHandle) : Guest ε :=
  c.map fun i => (i, rt.run i)

/-- **The handlers are runs of the machine**: what `serve` answers, and what it leaves in
`CURRENT_RESULT`, is what the steps of the request do to the worker. -/
theorem serve_run (rt : Runtime ε) (dir : Bytes) (e : Endpoint) (protection : Bytes)
    (input : List Bytes) (enable_file_access : Bool) (h : Host) (log : List (Served ε)) :
    let c := outcome (create_wasm_instance rt e.name protection input
      (contains protection (lit "_aslr")) dir enable_file_access h)
    let r := outcome (serve rt dir e protection input enable_file_access h)
    run step ⟨h.current_result, .idle, log⟩ (acts e (guest_of rt c.1)) =
      some ⟨r.2.current_result, .idle, log ++ [⟨e, guest_of rt c.1, r.1⟩]⟩ := by
  intro c r
  have hcell : c.2.current_result = h.current_result := by
    rw [show c.2 = _ from create_wasm_instance_host ..]
  have hr : r.1 = isolated e (guest_of rt c.1) ∧
      r.2.current_result = left h.current_result e (guest_of rt c.1) := by
    rw [← hcell]
    rcases hc : create_wasm_instance rt e.name protection input
      (contains protection (lit "_aslr")) dir enable_file_access h with ⟨i, h'⟩ | ⟨f, h'⟩
    · simp [r, c, serve_apply, hc, guest_of, Except.map, isolated_ok, left_ok]
    · rcases f with x | p
      all_goals simp [r, c, serve_apply, hc, guest_of, Except.map, isolated, left]
  rw [run_acts, ← hr.1, ← hr.2]

/-! ### All threads -/

variable {Tid : Type} [DecidableEq Tid]

/-- The threads before any request: idle, with any value in their cells. -/
def Idle (s : Tid → Worker ε) : Prop := ∀ t, (s t).pc = .idle ∧ (s t).log = []

theorem inv_of_run {s s' : Tid → Worker ε} {as : List (Tid × Act ε)} (hs : Idle s)
    (h : run (stepAt step) s as = some s') (t : Tid) : Inv (own t as) (s' t) :=
  run_inv_of_idle (hs t).1 (hs t).2 (run_stepAt h t)

/-- **Response isolation.** In every interleaving of the threads, the steps of a thread are those of
the requests it answered, one after the other, and of the request it is serving; a request is
answered `Ok(body)` only when its own instance made a result hostcall, the last of which had the
expected kind and the payload `body`; and two requests whose own instances did the same get the same
answer, in any two runs. -/
theorem response_isolation {s s' : Tid → Worker ε} {as : List (Tid × Act ε)} (hs : Idle s)
    (h : run (stepAt step) s as = some s') (t : Tid) :
    own t as = (s' t).log.flatMap (fun r => acts r.endpoint r.guest) ++ (s' t).pc.acts ∧
    ∀ r ∈ (s' t).log,
      (∀ body, r.answer = .ok body → ∃ i calls, r.guest = .ok (i, ⟨calls, .returned⟩) ∧
        calls.getLast? = some ⟨r.endpoint.expects, body⟩) ∧
      ∀ (s1 s1' : Tid → Worker ε) (as1 : List (Tid × Act ε)), Idle s1 →
        run (stepAt step) s1 as1 = some s1' → ∀ t1, ∀ r1 ∈ (s1' t1).log,
          r1.endpoint = r.endpoint → r1.guest.map Prod.snd = r.guest.map Prod.snd →
            r1.answer = r.answer := by
  have hI := inv_of_run hs h t
  refine ⟨hI.history, fun r hr => ⟨fun body hb => ?_, ?_⟩⟩
  · rw [hI.answers r hr] at hb
    exact isolated_eq_ok hb
  · intro s1 s1' as1 hs1 h1 t1 r1 hr1 he hg
    have hI1 := inv_of_run hs1 h1 t1
    rw [hI.answers r hr, hI1.answers r1 hr1, he, isolated_congr hg]

/-- An instance of `fib_c`. -/
def fibInstance : InstanceHandle :=
  ⟨⟨lit "modules/fib_c_stock.so", false, 0⟩, limits_for 0, ⟨[[], lit "4"], []⟩, lit "stock"⟩

/-- Two threads with stale cells: `true` serves `fib_c`, `false` cannot create an instance. -/
def staleWorkers : Bool → Worker Unit := fun _ => ⟨.string (lit "stale"), .idle, []⟩

def twoRequests : List (Bool × Act Unit) :=
  [(true, .request .fib_c), (false, .request .jpeg_resize_c), (true, .create (.ok fibInstance)),
    (true, .reset), (false, .create (.error (.panic (.get_failed (lit "jpeg_resize_c_x"))))),
    (true, .propagate), (true, .call ⟨.byteArray, lit "?"⟩), (true, .call ⟨.string, lit "3"⟩),
    (true, .stop .returned), (true, .read), (true, .clear)]

theorem response_isolation_two_requests :
    ∃ s', run (stepAt step) staleWorkers twoRequests = some s' ∧
      own true twoRequests =
        (s' true).log.flatMap (fun r => acts r.endpoint r.guest) ++ (s' true).pc.acts ∧
      (s' true).log.map Served.answer = [.ok (lit "3")] := by
  have hs : Idle staleWorkers := fun _ => ⟨rfl, rfl⟩
  have hrun : run (stepAt step) staleWorkers twoRequests = some _ := rfl
  exact ⟨_, hrun, (response_isolation hs hrun true).1, rfl⟩

end HfiWebserver.Server.Threads
