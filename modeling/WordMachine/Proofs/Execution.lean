import WordMachine.Machine

/-!
# Execution

What is logged has no influence on what a program does. `BusProgram.eval` runs a program without a
log, and two judgements on microcode are built on it. `Completes` states the exact effect on a core
and a device. `Ensures` states what holds of the core at the end, for every device and whatever it
replies; `Keeps` is the case in which a value computed from the core is the same as before.

* `run_eq_eval`: a run is an evaluation with a log.
* `completes_bind`, `ensures_bind`: how the judgements go through a composition.
* `Ensures.of_completes`: what microcode ensures is so after it has completed.
* `completes_of_step`, `step_of_completes`: a step of the machine and its instruction.
* `step_congr`: steps whose instructions have the same result.
-/

namespace WordMachine

variable {α β γ δ : Type}

/-- Results can be compared, so that the steps of a given machine can be computed. -/
instance decidableEqResult [DecidableEq α] : DecidableEq (Except Fault α)
  | .ok a, .ok b => decidable_of_iff (a = b) ⟨congrArg _, Except.ok.inj⟩
  | .error f, .error g => decidable_of_iff (f = g) ⟨congrArg _, Except.error.inj⟩
  | .ok _, .error _ => isFalse nofun
  | .error _, .ok _ => isFalse nofun

namespace BusProgram

section

variable [Device δ]

/-- The result of a program and the device after it. -/
def eval : BusProgram α → δ → Except Fault α × δ
  | done result, device => (.ok result, device)
  | fault f, device => (.error f, device)
  | access address request next, device =>
    match Device.answer device address request with
    | (.ok reply, device) => (next reply).eval device
    | (.error f, device) => (.error f, device)
  | log _ next, device => next.eval device

/-- The accesses that a program makes to a device, with the one that fails if there is one. -/
def accesses : BusProgram α → δ → List (Word × Request)
  | done _, _ => []
  | fault _, _ => []
  | access address request next, device =>
    (address, request) :: match Device.answer device address request with
      | (.ok reply, device) => (next reply).accesses device
      | (.error _, _) => []
  | log _ next, device => next.accesses device

theorem run_eq_eval (p : BusProgram α) (device : δ) (entries : Array LogEntry) :
    ((p.run device entries).result, (p.run device entries).device) = p.eval device := by
  induction p generalizing device entries with
  | done result => rfl
  | fault f => rfl
  | access address request next ih =>
    rw [run, eval]
    generalize Device.answer device address request = answer
    obtain ⟨reply, device⟩ := answer
    cases reply with
    | ok reply => exact ih reply device entries
    | error f => rfl
  | log entry next ih => exact ih device (entries.push entry)

theorem eval_bind (p : BusProgram α) (next : α → BusProgram β) (device : δ) :
    (p.bind next).eval device =
      match p.eval device with
      | (.ok a, device) => (next a).eval device
      | (.error f, device) => (.error f, device) := by
  induction p generalizing device with
  | done result => rfl
  | fault reason => rfl
  | access address request rest ih =>
    simp only [bind, eval]
    split
    · exact ih _ _
    · rfl
  | log entry next ih => exact ih _

end

/-- A program ends with a result of which `post` holds or with a fault, whatever the replies. -/
def Always (post : α → Prop) : BusProgram α → Prop
  | done result => post result
  | fault _ => True
  | access _ _ next => ∀ reply, (next reply).Always post
  | log _ next => next.Always post

theorem always_bind (p : BusProgram α) (next : α → BusProgram β) (post : β → Prop) :
    (p.bind next).Always post ↔ p.Always fun a => (next a).Always post := by
  induction p with
  | done result => rfl
  | fault f => rfl
  | access address request rest ih => exact forall_congr' ih
  | log entry next ih => exact ih

theorem Always.mono {post post' : α → Prop} {p : BusProgram α} (hp : p.Always post)
    (h : ∀ a, post a → post' a) : p.Always post' := by
  induction p with
  | done result => exact h result hp
  | fault f => trivial
  | access address request next ih => exact fun reply => ih reply (hp reply)
  | log entry next ih => exact ih hp

theorem always_of_forall (p : BusProgram α) {post : α → Prop} (h : ∀ a, post a) :
    p.Always post := by
  induction p with
  | done result => exact h result
  | fault f => trivial
  | access address request next ih => exact fun reply => ih reply
  | log entry next ih => exact ih

/-- What follows a program matters for the results only that it can end with. -/
theorem Always.bind_congr {p : BusProgram α} {next next' : α → BusProgram β}
    (hp : p.Always fun a => next a = next' a) : p.bind next = p.bind next' := by
  induction p with
  | done result => exact hp
  | fault f => rfl
  | access address request rest ih =>
    exact congrArg (access address request) (funext fun reply => ih reply (hp reply))
  | log entry rest ih => exact congrArg (log entry) (ih hp)

/-- A program makes no access that asks for a change, whatever the replies. -/
def ReadsOnly : BusProgram α → Prop
  | done _ => True
  | fault _ => True
  | access _ request next => request.isWrite = false ∧ ∀ reply, (next reply).ReadsOnly
  | log _ next => next.ReadsOnly

theorem ReadsOnly.bind {p : BusProgram α} {next : α → BusProgram β} (hp : p.ReadsOnly)
    (hn : ∀ a, (next a).ReadsOnly) : (p.bind next).ReadsOnly := by
  induction p with
  | done result => exact hn result
  | fault f => trivial
  | access address request rest ih => exact ⟨hp.1, fun reply => ih reply (hp.2 reply)⟩
  | log entry next ih => exact ih hp

theorem Always.of_eval [Device δ] {post : α → Prop} {p : BusProgram α} {device device' : δ} {a : α}
    (hp : p.Always post) (h : p.eval device = (.ok a, device')) : post a := by
  induction p generalizing device with
  | done result =>
    cases h
    exact hp
  | fault f => cases h
  | access address request next ih =>
    rw [eval] at h
    split at h
    · exact ih _ (hp _) h
    · cases h
  | log entry next ih => exact ih hp h

end BusProgram

namespace Microcode

/-! ## Completion -/

section

variable [Device δ]

/-- Microcode that is run on a core and a device ends with a result, and leaves a core and a
    device. -/
def Completes (code : Microcode α) (core : Core) (device : δ) (a : α) (core' : Core)
    (device' : δ) : Prop :=
  (code core).eval device = (.ok (a, core'), device')

variable {core core' : Core} {device device' : δ}

theorem Completes.unique {code : Microcode α} {a b : α} {core₁ core₂ : Core} {device₁ device₂ : δ}
    (h₁ : code.Completes core device a core₁ device₁)
    (h₂ : code.Completes core device b core₂ device₂) :
    a = b ∧ core₁ = core₂ ∧ device₁ = device₂ := by
  unfold Completes at h₁ h₂
  rw [h₁] at h₂
  cases h₂
  exact ⟨rfl, rfl, rfl⟩

theorem completes_bind {code : Microcode α} {next : α → Microcode β} {b : β} :
    (code >>= next).Completes core device b core' device' ↔
      ∃ a core₁ device₁, code.Completes core device a core₁ device₁ ∧
        (next a).Completes core₁ device₁ b core' device' := by
  change ((code core).bind fun r => next r.1 r.2).eval device = _ ↔ _
  rw [BusProgram.eval_bind]
  unfold Completes
  generalize (code core).eval device = outcome
  obtain ⟨result, device₁⟩ := outcome
  cases result with
  | ok r =>
    obtain ⟨a, core₁⟩ := r
    constructor
    · intro h
      exact ⟨a, core₁, device₁, rfl, h⟩
    · rintro ⟨_, _, _, heq, h⟩
      cases heq
      exact h
  | error f =>
    constructor
    · intro h
      cases h
    · rintro ⟨_, _, _, heq, -⟩
      cases heq

/-- Microcode that comes to an end completes in that way only. -/
theorem completes_iff_of_eval {code : Microcode α} {a b : α} {core₁ : Core} {device₁ : δ}
    (h : (code core).eval device = (.ok (a, core₁), device₁)) :
    code.Completes core device b core' device' ↔ b = a ∧ core' = core₁ ∧ device' = device₁ := by
  unfold Completes
  rw [h]
  simp [eq_comm, and_assoc]

@[simp] theorem completes_pure {a b : α} :
    (pure a : Microcode α).Completes core device b core' device' ↔
      b = a ∧ core' = core ∧ device' = device :=
  completes_iff_of_eval rfl

theorem completes_map {code : Microcode α} {f : α → β} {b : β} :
    (f <$> code).Completes core device b core' device' ↔
      ∃ a, code.Completes core device a core' device' ∧ b = f a := by
  rw [map_eq_pure_bind, completes_bind]
  simp only [completes_pure]
  constructor
  · rintro ⟨a, _, _, hcode, rfl, rfl, rfl⟩
    exact ⟨a, hcode, rfl⟩
  · rintro ⟨a, hcode, rfl⟩
    exact ⟨a, core', device', hcode, rfl, rfl, rfl⟩

@[simp] theorem completes_access {address : Word} {request : Request} {reply : request.Reply} :
    (access address request).Completes core device reply core' device' ↔
      Device.answer device address request = (.ok reply, device') ∧ core' = core := by
  unfold Completes access
  rw [BusProgram.eval]
  generalize Device.answer device address request = answer
  obtain ⟨result, device₁⟩ := answer
  cases result with
  | ok r =>
    simp only [BusProgram.eval, Prod.mk.injEq, Except.ok.injEq]
    constructor
    · rintro ⟨⟨rfl, rfl⟩, rfl⟩
      exact ⟨⟨rfl, rfl⟩, rfl⟩
    · rintro ⟨⟨rfl, rfl⟩, rfl⟩
      exact ⟨⟨rfl, rfl⟩, rfl⟩
  | error f => simp

@[simp] theorem completes_set {r : Register} {word : Word} {u : Unit} :
    (set r word).Completes core device u core' device' ↔
      core' = core.set r word ∧ device' = device :=
  (completes_iff_of_eval rfl).trans (and_iff_right rfl)

@[simp] theorem completes_setCore {c : Core} {u : Unit} :
    (setCore c).Completes core device u core' device' ↔ core' = c ∧ device' = device :=
  (completes_iff_of_eval rfl).trans (and_iff_right rfl)

@[simp] theorem completes_setFrameSize {size : Word} {u : Unit} :
    (setFrameSize size).Completes core device u core' device' ↔
      core' = ⟨core.registers, size⟩ ∧ device' = device :=
  (completes_iff_of_eval rfl).trans (and_iff_right rfl)

@[simp] theorem completes_log {entry : LogEntry} {u : Unit} :
    (log entry).Completes core device u core' device' ↔ core' = core ∧ device' = device :=
  (completes_iff_of_eval rfl).trans (and_iff_right rfl)

/-! Each step of microcode ahead of a continuation. -/

section

variable {b : β}

@[simp] theorem completes_access_bind {address : Word} {request : Request}
    {next : request.Reply → Microcode β} :
    (access address request >>= next).Completes core device b core' device' ↔
      ∃ reply device₁, Device.answer device address request = (.ok reply, device₁) ∧
        (next reply).Completes core device₁ b core' device' := by
  rw [completes_bind]
  constructor
  · rintro ⟨reply, _, device₁, haccess, hnext⟩
    obtain ⟨hanswer, rfl⟩ := completes_access.mp haccess
    exact ⟨reply, device₁, hanswer, hnext⟩
  · rintro ⟨reply, device₁, hanswer, hnext⟩
    exact ⟨reply, core, device₁, completes_access.mpr ⟨hanswer, rfl⟩, hnext⟩

@[simp] theorem completes_check_bind {e : Except Fault α} {next : α → Microcode β} :
    (check e >>= next).Completes core device b core' device' ↔
      ∃ a, e = .ok a ∧ (next a).Completes core device b core' device' := by
  cases e with
  | ok a =>
    constructor
    · exact fun h => ⟨a, rfl, h⟩
    · rintro ⟨_, ⟨⟩, h⟩
      exact h
  | error f =>
    constructor
    · intro h
      cases h
    · rintro ⟨_, ⟨⟩, -⟩

theorem completes_bind_of_done {code : Microcode α} {next : α → Microcode β} {a : α} {core₁ : Core}
    (h : code core = .done (a, core₁)) :
    (code >>= next).Completes core device b core' device' ↔
      (next a).Completes core₁ device b core' device' := by
  have heq : (code >>= next) core = next a core₁ := by
    change (code core).bind (fun r => next r.1 r.2) = _
    rw [h]
    rfl
  unfold Completes
  rw [heq]

@[simp] theorem completes_get_bind {r : Register} {next : Word → Microcode β} :
    (get r >>= next).Completes core device b core' device' ↔
      (next (core.get r)).Completes core device b core' device' :=
  completes_bind_of_done rfl

@[simp] theorem completes_set_bind {r : Register} {word : Word} {next : Unit → Microcode β} :
    (set r word >>= next).Completes core device b core' device' ↔
      (next ()).Completes (core.set r word) device b core' device' :=
  completes_bind_of_done rfl

@[simp] theorem completes_core_bind {next : Core → Microcode β} :
    (Microcode.core >>= next).Completes core device b core' device' ↔
      (next core).Completes core device b core' device' :=
  completes_bind_of_done rfl

@[simp] theorem completes_setCore_bind {c : Core} {next : Unit → Microcode β} :
    (setCore c >>= next).Completes core device b core' device' ↔
      (next ()).Completes c device b core' device' :=
  completes_bind_of_done rfl

@[simp] theorem completes_frameSize_bind {next : Word → Microcode β} :
    (frameSize >>= next).Completes core device b core' device' ↔
      (next core.frameSize).Completes core device b core' device' :=
  completes_bind_of_done rfl

@[simp] theorem completes_setFrameSize_bind {size : Word} {next : Unit → Microcode β} :
    (setFrameSize size >>= next).Completes core device b core' device' ↔
      (next ()).Completes ⟨core.registers, size⟩ device b core' device' :=
  completes_bind_of_done rfl

@[simp] theorem completes_log_bind {entry : LogEntry} {next : Unit → Microcode β} :
    (log entry >>= next).Completes core device b core' device' ↔
      (next ()).Completes core device b core' device' := Iff.rfl

end

end

/-! ## Postconditions -/

/-- Microcode that is run on a core ends with a result and a core of which `post` holds or with a
    fault, whatever the device replies. -/
def Ensures (core : Core) (post : α → Core → Prop) (code : Microcode α) : Prop :=
  (code core).Always fun r => post r.1 r.2

/-- Microcode leaves the value that `f` computes from a core as it is. -/
def Keeps (f : Core → β) (code : Microcode α) : Prop :=
  ∀ core, code.Ensures core fun _ core' => f core' = f core

/-- Microcode makes no access that asks for a change. -/
def ReadsOnly (code : Microcode α) : Prop := ∀ core, (code core).ReadsOnly

theorem Ensures.of_completes [Device δ] {code : Microcode α} {core core' : Core}
    {post : α → Core → Prop} {device device' : δ} {a : α} (hc : code.Ensures core post)
    (h : code.Completes core device a core' device') : post a core' := by
  have key : (code core).Always fun r => post r.1 r.2 := hc
  exact key.of_eval h

theorem Keeps.of_completes [Device δ] {code : Microcode α} {core core' : Core} {f : Core → β}
    {device device' : δ} {a : α} (hc : code.Keeps f)
    (h : code.Completes core device a core' device') : f core' = f core :=
  (hc core).of_completes h

theorem Ensures.mono {code : Microcode α} {core : Core} {post post' : α → Core → Prop}
    (hc : code.Ensures core post) (h : ∀ a core', post a core' → post' a core') :
    code.Ensures core post' :=
  BusProgram.Always.mono hc fun r => h r.1 r.2

section

variable {core : Core}

theorem ensures_of_forall (code : Microcode α) {post : α → Core → Prop}
    (h : ∀ a core', post a core') : code.Ensures core post :=
  BusProgram.always_of_forall (code core) fun r => h r.1 r.2

theorem ensures_bind {code : Microcode α} {next : α → Microcode β} {post : β → Core → Prop} :
    (code >>= next).Ensures core post ↔
      code.Ensures core fun a core' => (next a).Ensures core' post :=
  BusProgram.always_bind (code core) (fun r => next r.1 r.2) _

/-- The second part may assume whatever the first one ensures. -/
theorem Ensures.bind {code : Microcode α} {next : α → Microcode β} {mid : α → Core → Prop}
    {post : β → Core → Prop} (hc : code.Ensures core mid)
    (hn : ∀ a core', mid a core' → (next a).Ensures core' post) :
    (code >>= next).Ensures core post :=
  ensures_bind.mpr (hc.mono hn)

/-- What follows microcode matters for the results and cores only that it can end with. -/
theorem Ensures.bind_congr {code : Microcode α} {next next' : α → Microcode β}
    (hc : code.Ensures core fun a core' => next a core' = next' a core') :
    (code >>= next) core = (code >>= next') core :=
  BusProgram.Always.bind_congr hc

theorem ensures_map {code : Microcode α} {f : α → β} {post : β → Core → Prop} :
    (f <$> code).Ensures core post ↔ code.Ensures core fun a core' => post (f a) core' := by
  rw [map_eq_pure_bind, ensures_bind]
  rfl

@[simp] theorem ensures_access {address : Word} {request : Request}
    {post : request.Reply → Core → Prop} :
    (access address request).Ensures core post ↔ ∀ reply, post reply core := Iff.rfl

@[simp] theorem ensures_get {r : Register} {post : Word → Core → Prop} :
    (get r).Ensures core post ↔ post (core.get r) core := Iff.rfl

@[simp] theorem ensures_set {r : Register} {word : Word} {post : Unit → Core → Prop} :
    (set r word).Ensures core post ↔ post () (core.set r word) := Iff.rfl

@[simp] theorem ensures_core {post : Core → Core → Prop} :
    Microcode.core.Ensures core post ↔ post core core := Iff.rfl

@[simp] theorem ensures_setCore {c : Core} {post : Unit → Core → Prop} :
    (setCore c).Ensures core post ↔ post () c := Iff.rfl

@[simp] theorem ensures_frameSize {post : Word → Core → Prop} :
    frameSize.Ensures core post ↔ post core.frameSize core := Iff.rfl

@[simp] theorem ensures_setFrameSize {size : Word} {post : Unit → Core → Prop} :
    (setFrameSize size).Ensures core post ↔ post () ⟨core.registers, size⟩ := Iff.rfl

@[simp] theorem ensures_log {entry : LogEntry} {post : Unit → Core → Prop} :
    (log entry).Ensures core post ↔ post () core := Iff.rfl

theorem ensures_check {e : Except Fault α} {post : α → Core → Prop} :
    (check e).Ensures core post ↔ ∀ a, e = .ok a → post a core := by
  cases e with
  | ok b =>
    constructor
    · rintro h a ⟨⟩
      exact h
    · exact fun h => h b rfl
  | error f => exact ⟨fun _ a h => (nomatch h), fun _ => trivial⟩

end

section

variable {f : Core → γ}

theorem Keeps.bind {code : Microcode α} {next : α → Microcode β} (hc : code.Keeps f)
    (hn : ∀ a, (next a).Keeps f) : (code >>= next).Keeps f := by
  intro core
  refine (hc core).bind fun a core₁ h₁ => ?_
  exact (hn a core₁).mono fun _ core₂ h₂ => h₂.trans h₁

theorem keeps_pure (a : α) : (pure a : Microcode α).Keeps f := fun _ => rfl

theorem Keeps.map {code : Microcode α} (hc : code.Keeps f) (g : α → β) : (g <$> code).Keeps f :=
  fun core => ensures_map.mpr (hc core)

theorem keeps_access (address : Word) (request : Request) : (access address request).Keeps f :=
  fun _ _ => rfl

theorem keeps_get (r : Register) : (get r).Keeps f := fun _ => rfl

theorem keeps_log (entry : LogEntry) : (log entry).Keeps f := fun _ => rfl

theorem keeps_check (e : Except Fault α) : (check e).Keeps f :=
  fun _ => ensures_check.mpr fun _ _ => rfl

theorem keeps_set {r : Register} {word : Word} (h : ∀ core : Core, f (core.set r word) = f core) :
    (set r word).Keeps f := h

theorem ReadsOnly.bind {code : Microcode α} {next : α → Microcode β} (hc : code.ReadsOnly)
    (hn : ∀ a, (next a).ReadsOnly) : (code >>= next).ReadsOnly :=
  fun core => (hc core).bind fun r => hn r.1 r.2

theorem readsOnly_pure (a : α) : (pure a : Microcode α).ReadsOnly := fun _ => trivial

theorem ReadsOnly.map {code : Microcode α} (hc : code.ReadsOnly) (g : α → β) :
    (g <$> code).ReadsOnly := by
  rw [map_eq_pure_bind]
  exact hc.bind fun a => readsOnly_pure (g a)

theorem readsOnly_access (address : Word) {request : Request} (h : request.isWrite = false) :
    (access address request).ReadsOnly := fun _ => ⟨h, fun _ => trivial⟩

theorem readsOnly_get (r : Register) : (get r).ReadsOnly := fun _ => trivial

theorem readsOnly_set (r : Register) (word : Word) : (set r word).ReadsOnly := fun _ => trivial

theorem readsOnly_core : core.ReadsOnly := fun _ => trivial

theorem readsOnly_setCore (c : Core) : (setCore c).ReadsOnly := fun _ => trivial

theorem readsOnly_setFrameSize (size : Word) : (setFrameSize size).ReadsOnly := fun _ => trivial

theorem readsOnly_log (entry : LogEntry) : (log entry).ReadsOnly := fun _ => trivial

theorem readsOnly_check : ∀ e : Except Fault α, (check e).ReadsOnly
  | .ok a => readsOnly_pure a
  | .error _ => fun _ => trivial

theorem readsOnly_forM {l : List α} {body : α → Microcode Unit} (h : ∀ a ∈ l, (body a).ReadsOnly) :
    (l.forM body).ReadsOnly := by
  induction l with
  | nil => exact readsOnly_pure ()
  | cons a l ih =>
    exact (h a List.mem_cons_self).bind fun _ => ih fun b hb => h b (List.mem_cons_of_mem a hb)

theorem keeps_forM {l : List α} {body : α → Microcode Unit} (h : ∀ a ∈ l, (body a).Keeps f) :
    (l.forM body).Keeps f := by
  induction l with
  | nil => exact keeps_pure ()
  | cons a l ih =>
    exact (h a List.mem_cons_self).bind fun _ => ih fun b hb => h b (List.mem_cons_of_mem a hb)

end

end Microcode

/-! ## Steps -/

namespace Machine

variable [Device δ] {machine : Machine δ} {b : Bool}

/-- The machine after a number of steps, whether they succeed or not. -/
def after (machine : Machine δ) : Nat → Machine δ
  | 0 => machine
  | n + 1 => (machine.after n).step.2

theorem after_succ (machine : Machine δ) (n : Nat) :
    machine.after (n + 1) = (machine.after n).step.2 := rfl

theorem after_after (machine : Machine δ) (n k : Nat) :
    (machine.after n).after k = machine.after (n + k) := by
  induction k with
  | zero => rfl
  | succ k ih => rw [after_succ, ih, ← Nat.add_assoc, after_succ]

/-- The accesses that the next step makes to the bus. -/
def accesses (machine : Machine δ) : List (Word × Request) :=
  if machine.halted then [] else (Microcode.instruction machine.core).accesses machine.bus

/-- A step is its instruction, and takes the core of before if that fails. -/
theorem step_eq_eval (hm : machine.halted = false) :
    (machine.step.1, machine.step.2.core, machine.step.2.bus) =
      match (Microcode.instruction machine.core).eval machine.bus with
      | (.ok (b, core), bus) => (.ok b, core, bus)
      | (.error f, bus) => (.error f, machine.core, bus) := by
  obtain ⟨core, bus, halted, entries⟩ := machine
  cases hm
  rw [← BusProgram.run_eq_eval (Microcode.instruction core) bus entries, step]
  generalize (Microcode.instruction core).run bus entries = outcome
  obtain ⟨_ | ⟨_ | _, core'⟩, bus', entries'⟩ := outcome <;> rfl

theorem result_step (hm : machine.halted = false) :
    machine.step.1 = ((Microcode.instruction machine.core).eval machine.bus).1.map Prod.fst := by
  have heval := step_eq_eval hm
  generalize (Microcode.instruction machine.core).eval machine.bus = outcome at heval ⊢
  obtain ⟨_ | _, bus⟩ := outcome <;> exact congrArg Prod.fst heval

theorem bus_step (hm : machine.halted = false) :
    machine.step.2.bus = ((Microcode.instruction machine.core).eval machine.bus).2 := by
  have heval := step_eq_eval hm
  generalize (Microcode.instruction machine.core).eval machine.bus = outcome at heval ⊢
  obtain ⟨_ | _, bus⟩ := outcome <;> exact congrArg (·.2.2) heval

theorem halted_of_step_eq_error {fault : Fault} (h : machine.step.1 = .error fault) :
    machine.halted = false := by
  cases hhalted : machine.halted with
  | false => rfl
  | true =>
    rw [step_of_halted hhalted] at h
    cases h

theorem completes_of_step (hm : machine.halted = false) (h : machine.step.1 = .ok b) :
    Microcode.instruction.Completes machine.core machine.bus b machine.step.2.core
      machine.step.2.bus := by
  have heval := step_eq_eval hm
  rw [h] at heval
  unfold Microcode.Completes
  generalize (Microcode.instruction machine.core).eval machine.bus = outcome at heval ⊢
  obtain ⟨_ | ⟨_, core'⟩, bus'⟩ := outcome
  · cases heval
  · cases heval
    rfl

/-- Steps whose instructions have the same result leave the same core and the same halt flag. -/
theorem step_congr {ε : Type} [Device ε] {machine' : Machine ε} (hcore : machine.core = machine'.core)
    (hhalted : machine.halted = machine'.halted)
    (hresult : ((Microcode.instruction machine.core).eval machine.bus).1 =
      ((Microcode.instruction machine'.core).eval machine'.bus).1) :
    machine.step.1 = machine'.step.1 ∧ machine.step.2.core = machine'.step.2.core ∧
      machine.step.2.halted = machine'.step.2.halted := by
  cases hm : machine.halted with
  | true =>
    rw [step_of_halted hm, step_of_halted (hhalted.symm.trans hm)]
    exact ⟨rfl, hcore, hhalted⟩
  | false =>
    have hm' : machine'.halted = false := hhalted.symm.trans hm
    have hstep : machine.step.1 = machine'.step.1 := by
      rw [result_step hm, result_step hm', hresult]
    cases hverdict : machine.step.1 with
    | error fault =>
      obtain ⟨hcore₁, hhalted₁⟩ := core_of_step_eq_error hverdict
      obtain ⟨hcore₂, hhalted₂⟩ := core_of_step_eq_error (hstep.symm.trans hverdict)
      rw [hcore₁, hcore₂, hhalted₁, hhalted₂]
      exact ⟨hverdict.symm.trans hstep, hcore, hhalted⟩
    | ok b =>
      have hcompletes := completes_of_step hm hverdict
      have hcompletes' := completes_of_step hm' (hstep.symm.trans hverdict)
      unfold Microcode.Completes at hcompletes hcompletes'
      rw [hcompletes, hcompletes'] at hresult
      rw [halted_of_step_eq_ok hverdict, halted_of_step_eq_ok (hstep.symm.trans hverdict)]
      exact ⟨hverdict.symm.trans hstep, (Prod.mk.inj (Except.ok.inj hresult)).2, rfl⟩

theorem step_of_completes {core : Core} {bus : Bus δ} (hm : machine.halted = false)
    (h : Microcode.instruction.Completes machine.core machine.bus b core bus) :
    machine.step.1 = .ok b ∧ machine.step.2.core = core ∧ machine.step.2.bus = bus := by
  have heval := step_eq_eval hm
  unfold Microcode.Completes at h
  rw [h] at heval
  simpa using heval

end Machine

end WordMachine
