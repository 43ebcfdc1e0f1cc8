import WordMachine.Proofs.Layout

/-!
# Traces

The accesses that a program makes to a device, one after the other, each with how it ended. An access
that fails is the last one. A program that makes the same accesses whatever the replies has a plan, and
its trace goes through the plan up to the first access that fails.

* `trace_bind`: the trace of a composition.
* `map_trace`: a trace goes through the accesses of the program.
* `ending_of_mem_trace`: how the accesses of a trace end, if that is known of each of them.
* `Makes.follows`, `Makes.eval_eq`: the trace and the result of a program with a plan.
* `Raises.of_eval_eq_error`: a fault is that of an access, or the program has raised it itself.
-/

namespace WordMachine

variable {α β δ : Type}

/-- An access that was made to a device, with how it ended. -/
structure Event where
  address : Word
  request : Request
  ending : Except Fault Unit
deriving DecidableEq

theorem map_eq_error_iff {f : α → β} {result : Except Fault α} {fault : Fault} :
    result.map f = .error fault ↔ result = .error fault := by
  cases result <;> simp [Except.map]

/-! ## Plans -/

/-- The accesses of a plan are made in order. Either all of them succeed, or the first one that fails
    is the last one made; the verdict says which. -/
inductive Follows : List (Word × Request) → List Event → Except Fault Unit → Prop
  | nil : Follows [] [] (.ok ())
  | cons {address : Word} {request : Request} {plan : List (Word × Request)} {trace : List Event}
      {verdict : Except Fault Unit} (h : Follows plan trace verdict) :
      Follows ((address, request) :: plan) (⟨address, request, .ok ()⟩ :: trace) verdict
  | failed (address : Word) (request : Request) (plan : List (Word × Request)) (fault : Fault) :
      Follows ((address, request) :: plan) [⟨address, request, .error fault⟩] (.error fault)

namespace Follows

variable {plan plan' : List (Word × Request)} {trace : List Event} {verdict : Except Fault Unit}
  {event : Event}

theorem mem_plan (h : Follows plan trace verdict) (he : event ∈ trace) :
    (event.address, event.request) ∈ plan := by
  induction h with
  | nil => cases he
  | cons h ih =>
    rcases List.mem_cons.mp he with rfl | he
    · exact List.mem_cons_self
    · exact List.mem_cons_of_mem _ (ih he)
  | failed address request plan fault =>
    obtain rfl := List.mem_singleton.mp he
    exact List.mem_cons_self

/-- Every access of a plan was made if none has failed. -/
theorem mem_of_mem_plan (h : Follows plan trace (.ok ())) {address : Word} {request : Request}
    (hp : (address, request) ∈ plan) : ⟨address, request, .ok ()⟩ ∈ trace := by
  induction plan generalizing trace with
  | nil => cases hp
  | cons first plan ih =>
    cases h with
    | cons h =>
      rcases List.mem_cons.mp hp with heq | hp
      · cases heq
        exact List.mem_cons_self
      · exact List.mem_cons_of_mem _ (ih h hp)

/-- The access that has failed is one of the plan. -/
theorem exists_failed {fault : Fault} (h : Follows plan trace (.error fault)) :
    ∃ address request, (address, request) ∈ plan ∧ ⟨address, request, .error fault⟩ ∈ trace := by
  induction plan generalizing trace with
  | nil => cases h
  | cons first plan ih =>
    cases h with
    | cons h =>
      obtain ⟨address, request, hplan, htrace⟩ := ih h
      exact ⟨address, request, List.mem_cons_of_mem _ hplan, List.mem_cons_of_mem _ htrace⟩
    | failed address request =>
      exact ⟨address, request, List.mem_cons_self, List.mem_cons_self⟩

theorem of_nil (h : Follows [] trace verdict) : trace = [] ∧ verdict = .ok () := by
  cases h
  exact ⟨rfl, rfl⟩

/-- If no access has failed, the trace is the plan. -/
theorem eq_map (h : Follows plan trace (.ok ())) :
    trace = plan.map fun access => ⟨access.1, access.2, .ok ()⟩ := by
  induction plan generalizing trace with
  | nil => exact h.of_nil.1
  | cons first plan ih =>
    cases h with
    | cons h => rw [ih h, List.map_cons]

/-- A plan of one access is followed by that one, and the verdict says how it ended. -/
theorem of_singleton {address : Word} {request : Request}
    (h : Follows [(address, request)] trace verdict) : trace = [⟨address, request, verdict⟩] := by
  cases h with
  | cons h =>
    cases h
    rfl
  | failed => rfl

/-- The second part of a plan is begun when the first one is done. -/
theorem split (h : Follows (plan ++ plan') trace verdict) :
    (∃ fault, verdict = .error fault ∧ Follows plan trace (.error fault)) ∨
      ∃ before after, trace = before ++ after ∧ Follows plan before (.ok ()) ∧
        Follows plan' after verdict := by
  induction plan generalizing trace with
  | nil => exact Or.inr ⟨[], trace, rfl, .nil, h⟩
  | cons first plan ih =>
    cases h with
    | @cons address request _ trace _ h =>
      rcases ih h with ⟨fault, rfl, hfailed⟩ | ⟨before, after, rfl, hbefore, hafter⟩
      · exact Or.inl ⟨fault, rfl, .cons hfailed⟩
      · exact Or.inr ⟨⟨address, request, .ok ()⟩ :: before, after, rfl, .cons hbefore, hafter⟩
    | failed address request _ fault => exact Or.inl ⟨fault, rfl, .failed address request plan fault⟩

end Follows

namespace BusProgram

/-! ## The trace of a program -/

section

variable [Device δ]

/-- The accesses that a program makes to a device, with how each of them ended. -/
def trace : BusProgram α → δ → List Event
  | done _, _ => []
  | fault _, _ => []
  | access address request next, device =>
    match Device.answer device address request with
    | (.ok reply, device) => ⟨address, request, .ok ()⟩ :: (next reply).trace device
    | (.error f, _) => [⟨address, request, .error f⟩]
  | log _ next, device => next.trace device

/-- What follows a program is on the trace behind it, unless the program has failed. -/
theorem trace_bind (p : BusProgram α) (next : α → BusProgram β) (device : δ) :
    (p.bind next).trace device = p.trace device ++
      match p.eval device with
      | (.ok a, device) => (next a).trace device
      | (.error _, _) => [] := by
  induction p generalizing device with
  | done result => rfl
  | fault f => rfl
  | access address request rest ih =>
    rw [bind, trace, trace, eval]
    generalize Device.answer device address request = outcome
    obtain ⟨f | reply, device'⟩ := outcome
    · rfl
    · exact congrArg _ (ih reply device')
  | log entry next ih => exact ih device

theorem trace_bind_done (p : BusProgram α) (f : α → β) (device : δ) :
    (p.bind fun a => .done (f a)).trace device = p.trace device := by
  rw [trace_bind]
  generalize p.eval device = outcome
  obtain ⟨_ | _, device'⟩ := outcome <;> exact List.append_nil _

theorem eval_bind_done (p : BusProgram α) (f : α → β) (device : δ) :
    (p.bind fun a => .done (f a)).eval device = ((p.eval device).1.map f, (p.eval device).2) := by
  rw [eval_bind]
  generalize p.eval device = outcome
  obtain ⟨_ | _, device'⟩ := outcome <;> rfl

/-- The accesses of a trace are those that the program makes. -/
theorem map_trace (p : BusProgram α) (device : δ) :
    (p.trace device).map (fun e => (e.address, e.request)) = p.accesses device := by
  induction p generalizing device with
  | done result => rfl
  | fault f => rfl
  | access address request next ih =>
    rw [trace, accesses]
    generalize Device.answer device address request = outcome
    obtain ⟨f | reply, device'⟩ := outcome
    · rfl
    · exact congrArg _ (ih reply device')
  | log entry next ih => exact ih device

theorem ReadsOnly.of_mem_trace {p : BusProgram α} (hp : p.ReadsOnly) {device : δ} {event : Event}
    (he : event ∈ p.trace device) : event.request.isWrite = false := by
  induction p generalizing device with
  | done result => cases he
  | fault f => cases he
  | access address request next ih =>
    rw [trace] at he
    split at he
    next reply device' heq =>
      rcases List.mem_cons.mp he with rfl | he
      · exact hp.1
      · exact ih reply (hp.2 reply) he
    next f device' heq =>
      obtain rfl := List.mem_singleton.mp he
      exact hp.1
  | log entry next ih => exact ih hp he

/-- If a device keeps what decides how its accesses end, so does each access of a program. -/
theorem ending_of_mem_trace {inv : δ → Prop} {verdict : Word → Request → Except Fault Unit}
    (hinv : ∀ device, inv device → ∀ address request,
      Device.ending device address request = verdict address request ∧
        inv (Device.answer device address request).2) {p : BusProgram α} {device : δ}
    (hdevice : inv device) {event : Event} (h : event ∈ p.trace device) :
    event.ending = verdict event.address event.request := by
  induction p generalizing device with
  | done result => cases h
  | fault f => cases h
  | access address request next ih =>
    obtain ⟨hending, hafter⟩ := hinv device hdevice address request
    rw [Device.ending] at hending
    rw [trace] at h
    generalize Device.answer device address request = outcome at hending hafter h
    obtain ⟨f | reply, device'⟩ := outcome
    · rw [List.mem_singleton.mp h]
      exact hending
    · rcases List.mem_cons.mp h with rfl | h
      · exact hending
      · exact ih reply hafter h
  | log entry next ih => exact ih hdevice h

end

/-! ## Programs with a plan -/

/-- A program makes the accesses of a plan and ends with a result of which `post` holds, whatever the
    replies. -/
def Makes (post : α → Prop) : List (Word × Request) → BusProgram α → Prop
  | plan, done result => plan = [] ∧ post result
  | _, fault _ => False
  | plan, access address request next =>
    ∃ rest, plan = (address, request) :: rest ∧ ∀ reply, (next reply).Makes post rest
  | plan, log _ next => next.Makes post plan

theorem Makes.bind {p : BusProgram α} {next : α → BusProgram β} {mid : α → Prop} {post : β → Prop}
    {plan plan' : List (Word × Request)} (hp : p.Makes mid plan)
    (hn : ∀ a, mid a → (next a).Makes post plan') : (p.bind next).Makes post (plan ++ plan') := by
  induction p generalizing plan with
  | done result =>
    obtain ⟨rfl, hmid⟩ := hp
    exact hn result hmid
  | fault f => cases hp
  | access address request rest ih =>
    obtain ⟨rest', rfl, hrest⟩ := hp
    exact ⟨rest' ++ plan', rfl, fun reply => ih reply (hrest reply)⟩
  | log entry next ih => exact ih hp

/-- A program with a plan fails only if one of its accesses does. -/
theorem Makes.follows [Device δ] {p : BusProgram α} {post : α → Prop} {plan : List (Word × Request)}
    (hp : p.Makes post plan) (device : δ) :
    Follows plan (p.trace device) ((p.eval device).1.map fun _ => ()) := by
  induction p generalizing plan device with
  | done result =>
    obtain ⟨rfl, -⟩ := hp
    exact .nil
  | fault f => cases hp
  | access address request next ih =>
    obtain ⟨rest, rfl, hrest⟩ := hp
    rw [trace, eval]
    generalize Device.answer device address request = outcome
    obtain ⟨f | reply, device'⟩ := outcome
    · exact .failed address request rest f
    · exact .cons (ih reply (hrest reply) device')
  | log entry next ih => exact ih hp device

theorem Makes.always {p : BusProgram α} {post : α → Prop} {plan : List (Word × Request)}
    (hp : p.Makes post plan) : p.Always post := by
  induction p generalizing plan with
  | done result => exact hp.2
  | fault f => trivial
  | access address request next ih =>
    obtain ⟨rest, -, hrest⟩ := hp
    exact fun reply => ih reply (hrest reply)
  | log entry next ih => exact ih hp

/-- The program that makes the accesses of a plan and nothing else. -/
def ofPlan : List (Word × Request) → BusProgram Unit
  | [] => .done ()
  | (address, request) :: rest => .access address request fun _ => ofPlan rest

theorem makes_ofPlan (plan : List (Word × Request)) : (ofPlan plan).Makes (fun _ => True) plan := by
  induction plan with
  | nil => exact ⟨rfl, trivial⟩
  | cons access rest ih => exact ⟨rest, rfl, fun _ => ih⟩

/-- A program with a plan ends as the plan does, and leaves the same device behind. -/
theorem Makes.eval_eq [Device δ] {p : BusProgram α} {post : α → Prop} {plan : List (Word × Request)}
    (hp : p.Makes post plan) (device : δ) :
    ((p.eval device).1.map fun _ => (), (p.eval device).2) = (ofPlan plan).eval device := by
  induction p generalizing plan device with
  | done result =>
    obtain ⟨rfl, -⟩ := hp
    rfl
  | fault f => cases hp
  | access address request next ih =>
    obtain ⟨rest, rfl, hrest⟩ := hp
    rw [ofPlan, eval, eval]
    generalize Device.answer device address request = outcome
    obtain ⟨f | reply, device'⟩ := outcome
    · rfl
    · exact ih reply (hrest reply) device'
  | log entry next ih => exact ih hp device

/-! ## Faults of a program itself -/

/-- Of the faults that a program raises itself `post` holds, whatever the replies. -/
def Raises (post : Fault → Prop) : BusProgram α → Prop
  | done _ => True
  | fault f => post f
  | access _ _ next => ∀ reply, (next reply).Raises post
  | log _ next => next.Raises post

theorem Raises.bind {p : BusProgram α} {next : α → BusProgram β} {post : Fault → Prop}
    (hp : p.Raises post) (hn : ∀ a, (next a).Raises post) : (p.bind next).Raises post := by
  induction p with
  | done result => exact hn result
  | fault f => exact hp
  | access address request rest ih => exact fun reply => ih reply (hp reply)
  | log entry next ih => exact ih hp

theorem Raises.mono {p : BusProgram α} {post post' : Fault → Prop} (hp : p.Raises post)
    (h : ∀ f, post f → post' f) : p.Raises post' := by
  induction p with
  | done result => trivial
  | fault f => exact h f hp
  | access address request next ih => exact fun reply => ih reply (hp reply)
  | log entry next ih => exact ih hp

theorem Makes.raises {p : BusProgram α} {post : α → Prop} {plan : List (Word × Request)}
    (hp : p.Makes post plan) : p.Raises fun _ => False := by
  induction p generalizing plan with
  | done result => trivial
  | fault f => exact hp
  | access address request next ih =>
    obtain ⟨rest, -, hrest⟩ := hp
    exact fun reply => ih reply (hrest reply)
  | log entry next ih => exact ih hp

/-- A fault is that of an access, or the program has raised it itself. -/
theorem Raises.of_eval_eq_error [Device δ] {p : BusProgram α} {post : Fault → Prop}
    (hp : p.Raises post) {device device' : δ} {f : Fault} (h : p.eval device = (.error f, device')) :
    post f ∨ ∃ event ∈ p.trace device, event.ending = .error f := by
  induction p generalizing device with
  | done result => cases h
  | fault f' =>
    cases h
    exact Or.inl hp
  | access address request next ih =>
    rw [eval] at h
    rw [trace]
    generalize Device.answer device address request = outcome at h ⊢
    obtain ⟨f' | reply, device₁⟩ := outcome
    · cases h
      exact Or.inr ⟨_, List.mem_cons_self, rfl⟩
    · rcases ih reply (hp reply) h with hpost | ⟨event, hmem, hending⟩
      · exact Or.inl hpost
      · exact Or.inr ⟨event, List.mem_cons_of_mem _ hmem, hending⟩
  | log entry next ih => exact ih hp h

end BusProgram

/-- The accesses that the next step makes to the bus, with how each of them ended. -/
def Machine.trace [Device δ] (machine : Machine δ) : List Event :=
  if machine.halted then [] else (Microcode.instruction machine.core).trace machine.bus

end WordMachine
