import WordMachine.Proofs.Reports

/-!
# Running in batches

The program runs a session some steps at a time and passes on what has been written after each of these
batches. What it prints in all is what a run in one go reports: a machine whose output was passed on
does the same as one whose output was kept, and only lacks what was written before.

* `Machine.Behind.after`: the two machines stay the same but for that.
* `Session.GoesOn.finishes_later_iff`: the end of a session that has gone on for a while.
* `Session.Ready.finishes_rest_iff`, `Session.Ready.conclude_rest`: the end of such a session once its
  output was passed on.
* `printsInBatches_iff`: what is printed in all.
-/

namespace WordMachine

variable {α : Type} {before : Array Byte}

/-! ## What was passed on -/

/-- A buffer that has taken bytes before those that are in it. -/
def Buffer.preceded (buffer : Buffer) (before : Array Byte) : Buffer :=
  { buffer with written := before ++ buffer.written }

theorem Buffer.Open.preceded {buffer : Buffer} (h : buffer.Open) (before : Array Byte) :
    (buffer.preceded before).Open := h

theorem Buffer.extended_preceded (buffer : Buffer) (before : Array Byte) (bytes : List Byte) :
    (buffer.preceded before).extended bytes = (buffer.extended bytes).preceded before := by
  have hwritten : before ++ buffer.written ++ bytes = before ++ (buffer.written ++ bytes) :=
    Array.ext' (by simp)
  rw [Buffer.extended, Buffer.preceded, hwritten]
  rfl

namespace Bus

open CommandLine (Peripheral)

/-- A bus, and the bus whose screen lacks what was written before. -/
inductive Behind (before : Array Byte) : Bus Peripheral → Bus Peripheral → Prop
  | alone (ram : Ram) (hbefore : before = #[]) :
      Behind before ⟨[whole ram], 1⟩ ⟨[whole ram], 1⟩
  | covered (ram : Ram) {buffer : Buffer} (hopen : buffer.Open) :
      Behind before (covered ram ⟨buffer.preceded before⟩) (covered ram ⟨buffer⟩)

variable {bus bus' : Bus Peripheral}

/-- An access to the one bus ends as it does on the other. -/
theorem Behind.answer (h : Behind before bus bus') (a : Word) (request : Request) :
    (bus.answer a request).1 = (bus'.answer a request).1 ∧
      Behind before (bus.answer a request).2 (bus'.answer a request).2 := by
  cases h with
  | alone ram hbefore =>
    rw [alone_answer]
    exact ⟨rfl, .alone _ hbefore⟩
  | @covered ram buffer hopen =>
    obtain ⟨reply, ram', hcovered⟩ := exists_answer_covered ram a request
    rw [hcovered _ (hopen.preceded before) (.ok ()), hcovered _ hopen (.ok ()),
      Buffer.extended_preceded]
    exact ⟨rfl, .covered ram' (hopen.extended _)⟩

/-- So does a program. -/
theorem Behind.eval (h : Behind before bus bus') (p : BusProgram α) :
    (p.eval bus).1 = (p.eval bus').1 ∧ Behind before (p.eval bus).2 (p.eval bus').2 := by
  cases h with
  | alone ram hbefore =>
    obtain ⟨ram', heval⟩ := @exists_eval_alone _ ram p
    refine ⟨rfl, ?_⟩
    rw [heval]
    exact .alone ram' hbefore
  | @covered ram buffer hopen =>
    obtain ⟨result, ram', trace, hcovered⟩ := exists_eval_covered p ram
    rw [(hcovered _ (hopen.preceded before)).1, (hcovered _ hopen).1, Buffer.extended_preceded]
    exact ⟨rfl, .covered ram' (hopen.extended _)⟩

/-- So does reading bytes one after the other. -/
theorem Behind.readEach (h : Behind before bus bus') (a : Word) (done : Array Byte) (count : Nat) :
    (bus.readEach a done count).1 = (bus'.readEach a done count).1 := by
  induction count generalizing bus bus' a done with
  | zero => rfl
  | succ count ih =>
    obtain ⟨hreply, hafter⟩ := h.answer a .readByte
    rw [Bus.readEach, Bus.readEach]
    generalize bus.answer a .readByte = outcome at hreply hafter ⊢
    generalize bus'.answer a .readByte = outcome' at hreply hafter ⊢
    obtain ⟨reply, bus₁⟩ := outcome
    obtain ⟨reply', bus₁'⟩ := outcome'
    obtain rfl : reply = reply' := hreply
    cases reply with
    | error f => rfl
    | ok byte => exact ih hafter (a + 1) (done.push byte)

end Bus

namespace Machine

open CommandLine (Peripheral)

/-- A machine, and the machine that lacks what was written before. Their logs do not matter. -/
structure Behind (before : Array Byte) (machine machine' : Machine Peripheral) : Prop where
  core : machine.core = machine'.core
  halted : machine.halted = machine'.halted
  bus : Bus.Behind before machine.bus machine'.bus

section

variable {machine machine' : Machine Peripheral}

theorem Behind.step (h : Behind before machine machine') :
    machine.step.1 = machine'.step.1 ∧ Behind before machine.step.2 machine'.step.2 := by
  obtain ⟨hresult, hbus⟩ := h.bus.eval (Microcode.instruction machine.core)
  obtain ⟨hstep, hcore, hhalted⟩ := step_congr h.core h.halted (by rw [hresult, h.core])
  refine ⟨hstep, hcore, hhalted, ?_⟩
  cases hm : machine.halted with
  | true =>
    rw [step_of_halted hm, step_of_halted (h.halted.symm.trans hm)]
    exact h.bus
  | false =>
    rw [bus_step hm, bus_step (h.halted.symm.trans hm), ← h.core]
    exact hbus

theorem Behind.after (h : Behind before machine machine') (n : Nat) :
    Behind before (machine.after n) (machine'.after n) := by
  induction n with
  | zero => exact h
  | succ n ih => exact ih.step.2

end

section

variable {δ : Type} [Device δ] {machine : Machine δ} {n k : Nat}

/-- A machine that has gone on for `n` steps goes on for `k` more. -/
theorem GoesOn.after_iff (h : machine.GoesOn n) :
    (machine.after n).GoesOn k ↔ machine.GoesOn (n + k) := by
  constructor
  · intro hrest j hj
    by_cases hjn : j < n
    · exact h j hjn
    · have hstep := hrest (j - n) (by omega)
      rwa [after_after, Nat.add_sub_of_le (Nat.le_of_not_lt hjn)] at hstep
  · intro hall j hj
    rw [after_after]
    exact hall (n + j) (by omega)

theorem GoesOn.stops_after_iff (h : machine.GoesOn n) :
    (machine.after n).Stops k ↔ machine.Stops (n + k) := by
  constructor
  · rintro ⟨hgo, hstops⟩
    rw [after_after] at hstops
    exact ⟨h.after_iff.mp hgo, hstops⟩
  · rintro ⟨hgo, hstops⟩
    rw [← after_after] at hstops
    exact ⟨h.after_iff.mpr hgo, hstops⟩

end

end Machine

namespace CommandLine

/-- A report that follows what was printed before. -/
def Report.preceded (report : Report) (before : Array Byte) : Report :=
  { report with output := before ++ report.output }

namespace Session

variable {session session' : Session} {verdict : Except Fault Bool} {n steps : Nat}

/-! ## Sessions that have gone on for a while -/

/-- A session that has made `n` steps. -/
def later (session : Session) (n : Nat) : Session :=
  ⟨session.machine.after n, session.remaining.map (· - n)⟩

theorem GoesOn.lt_of_finishes (h : session.GoesOn n) (hfinishes : session.Finishes steps verdict) :
    n < steps := by
  cases hfinishes with
  | stops hstops =>
    exact Nat.lt_succ_of_le (Nat.le_of_not_lt fun hlt => hstops.not_goesOn hlt h.machine)
  | exhausted hlimit => exact h.limit steps hlimit

/-- The steps up to the end are those made so far and those that are still to be made. -/
theorem GoesOn.finishes_later_iff (h : session.GoesOn n) :
    (session.later n).Finishes steps verdict ↔ session.Finishes (n + steps) verdict := by
  -- the limit and the steps of the rest are both `n` less
  have hlimit : ∀ limit, (session.later n).remaining = some limit ↔
      session.remaining = some (n + limit) := by
    intro limit
    rw [later, Option.map_eq_some_iff]
    constructor
    · rintro ⟨all, hall, rfl⟩
      rw [hall, Nat.add_sub_of_le (Nat.le_of_lt (h.limit all hall))]
    · intro hall
      exact ⟨n + limit, hall, Nat.add_sub_cancel_left n limit⟩
  constructor
  · intro hfinishes
    cases hfinishes with
    | @stops k hstops hk =>
      have hstops' := h.machine.stops_after_iff.mp hstops
      rw [later, Machine.after_after]
      refine .stops hstops' fun all hall => ?_
      have hn := h.limit all hall
      have := hk (all - n) ((hlimit _).mpr (by rw [Nat.add_sub_of_le (Nat.le_of_lt hn), hall]))
      change n + k < all
      omega
    | exhausted hsteps hgo =>
      exact .exhausted ((hlimit steps).mp hsteps) (h.machine.after_iff.mp hgo)
  · intro hfinishes
    have hlt := h.lt_of_finishes hfinishes
    generalize htotal : n + steps = total at hfinishes
    cases hfinishes with
    | @stops k hstops hk =>
      obtain ⟨j, rfl⟩ : ∃ j, k = n + j := Nat.exists_eq_add_of_le (by omega)
      obtain rfl : steps = j + 1 := by omega
      rw [← Machine.after_after]
      refine .stops (h.machine.stops_after_iff.mpr hstops) fun limit hrest => ?_
      have := hk _ ((hlimit limit).mp hrest)
      omega
    | exhausted hall hgo =>
      subst htotal
      exact .exhausted ((hlimit steps).mpr hall) (h.machine.after_iff.mpr hgo)

/-- When a session ends depends on how the steps of its machine end. -/
theorem Finishes.congr (hremaining : session.remaining = session'.remaining)
    (hsteps : ∀ k, (session.machine.after k).step.1 = (session'.machine.after k).step.1)
    (h : session.Finishes steps verdict) : session'.Finishes steps verdict := by
  have hgoesOn : ∀ {k}, session.machine.GoesOn k → session'.machine.GoesOn k :=
    fun hgo j hj => (hsteps j).symm.trans (hgo j hj)
  cases h with
  | @stops k hstops hlimit =>
    rw [hsteps]
    rw [hremaining] at hlimit
    refine .stops ⟨hgoesOn hstops.goesOn, ?_⟩ hlimit
    rw [← hsteps]
    exact hstops.stops
  | exhausted hlimit hgo => exact .exhausted (hremaining ▸ hlimit) (hgoesOn hgo)

/-! ## Passing output on -/

theorem output_of_behind {machine machine' : Machine Peripheral}
    (h : Machine.Behind before machine machine') :
    output ⟨machine, none⟩ = before ++ output ⟨machine', none⟩ := by
  have hbus := h.bus
  rw [output, output]
  generalize machine.bus = bus at hbus
  generalize machine'.bus = bus' at hbus
  cases hbus with
  | alone ram hbefore =>
    rw [hbefore, Array.empty_append]
  | covered ram hopen => simp [Bus.covered, Bus.page, Bus.whole, written, Buffer.preceded]

theorem dump_of_behind {machine machine' : Machine Peripheral}
    (h : Machine.Behind before machine machine') : dump ⟨machine, none⟩ = dump ⟨machine', none⟩ := by
  have hview : (machine.view (machine.core.get .ip) 8).1 =
      (machine'.view (machine'.core.get .ip) 8).1 := by
    rw [Machine.view_eq, Machine.view_eq, ← h.core]
    exact congrArg _ (h.bus.readEach _ _ 8)
  rw [dump, dump]
  simp only
  rw [hview, h.core]

/-- What a session printed before comes first in its report. -/
theorem conclude_of_behind {machine machine' : Machine Peripheral}
    (h : Machine.Behind before machine machine') (withDump : Bool) (verdict : Except Fault Bool) :
    conclude ⟨machine, none⟩ withDump verdict =
      (conclude ⟨machine', none⟩ withDump verdict).preceded before := by
  have hout : output ⟨machine, none⟩ ++
        (if withDump then (dump ⟨machine, none⟩).toUTF8.data else #[]) =
      before ++ (output ⟨machine', none⟩ ++
        if withDump then (dump ⟨machine', none⟩).toUTF8.data else #[]) := by
    rw [output_of_behind h, dump_of_behind h, Array.append_assoc]
  unfold conclude Report.preceded
  simp only
  rw [hout]
  obtain fault | _ | _ := verdict <;> rfl

/-- A session that has not ended, of a machine with memory everywhere. -/
structure Ready (session : Session) : Prop where
  running : session.machine.halted = false
  backed : Bus.Backed Buffer.Open session.machine.bus

/-- A session whose output was passed on lacks it, and that is all. -/
theorem behind_drained (h : Bus.Backed Buffer.Open session.machine.bus) :
    Machine.Behind session.output session.machine session.drained.machine ∧
      Bus.Backed Buffer.Open session.drained.machine.bus := by
  obtain ⟨⟨core, bus, halted, log⟩, remaining⟩ := session
  change Bus.Backed Buffer.Open bus at h
  cases h with
  | @alone ram hsize => exact ⟨⟨rfl, rfl, .alone ram rfl⟩, .alone hsize⟩
  | @covered ram buffer hsize hopen =>
    have hopen' : Buffer.Open { buffer with written := #[] } := hopen
    have hbuffer : Buffer.preceded { buffer with written := #[] } buffer.written = buffer := by
      rw [Buffer.preceded, Array.append_empty]
    have houtput : output ⟨⟨core, Bus.covered ram ⟨buffer⟩, halted, log⟩, remaining⟩ =
        buffer.written := by
      simp [output, Bus.covered, Bus.page, Bus.whole, written]
    have hbus := @Bus.Behind.covered buffer.written ram _ hopen'
    rw [hbuffer] at hbus
    rw [houtput]
    exact ⟨⟨rfl, rfl, hbus⟩, .covered hsize hopen'⟩

/-- What is left of a session that has made `n` steps once its output was passed on. -/
def rest (session : Session) (n : Nat) : Session := (session.later n).drained

theorem Ready.backed_later (h : session.Ready) (n : Nat) :
    Bus.Backed Buffer.Open (session.later n).machine.bus :=
  Machine.backed_after Buffer.steady h.backed n

theorem Ready.behind (h : session.Ready) (n : Nat) :
    Machine.Behind (session.later n).output (session.machine.after n) (session.rest n).machine :=
  (behind_drained (h.backed_later n)).1

theorem Ready.rest (h : session.Ready) (hgo : session.GoesOn n) : (session.rest n).Ready where
  running := (h.behind n).halted.symm.trans (hgo.machine.halted h.running)
  backed := (behind_drained (h.backed_later n)).2

theorem Ready.finishes_rest_iff (h : session.Ready) (hgo : session.GoesOn n) :
    (session.rest n).Finishes steps verdict ↔ session.Finishes (n + steps) verdict := by
  have hsteps : ∀ k, ((session.later n).machine.after k).step.1 =
      ((session.rest n).machine.after k).step.1 := fun k => ((h.behind n).after k).step.1
  rw [← hgo.finishes_later_iff]
  exact ⟨Finishes.congr rfl fun k => (hsteps k).symm, Finishes.congr rfl hsteps⟩

theorem Ready.conclude_rest (h : session.Ready) (n steps : Nat) (withDump : Bool)
    (verdict : Except Fault Bool) :
    conclude ⟨session.machine.after (n + steps), none⟩ withDump verdict =
      (conclude ⟨(session.rest n).machine.after steps, none⟩ withDump verdict).preceded
        (session.later n).output := by
  rw [← Machine.after_after]
  exact conclude_of_behind ((h.behind n).after steps) withDump verdict

/-! ## Batches -/

/-- What is printed in all when a session is run in batches of `size` steps and what was written is
    passed on after each of them. -/
inductive PrintsInBatches (size : Nat) (withDump : Bool) : Session → Report → Prop
  | ends {session session' : Session} {verdict : Except Fault Bool}
      (h : session.advance size = (some verdict, session')) :
      PrintsInBatches size withDump session (session'.conclude withDump verdict)
  | goesOn {session session' : Session} {report : Report}
      (h : session.advance size = (none, session'))
      (hrest : PrintsInBatches size withDump session'.drained report) :
      PrintsInBatches size withDump session (report.preceded session'.output)

section

variable {size : Nat} {withDump : Bool} {report : Report}

theorem finishes_of_printsInBatches (hready : session.Ready)
    (h : PrintsInBatches size withDump session report) :
    ∃ steps verdict, session.Finishes steps verdict ∧
      report = conclude ⟨session.machine.after steps, none⟩ withDump verdict := by
  induction h with
  | @ends session session' verdict h =>
    rcases session.goesOn_or_finishes size with hgo | ⟨steps, hle, verdict', hfinishes⟩
    · rw [advance_of_goesOn hready.running hgo] at h
      cases h
    · rw [advance_of_finishes hready.running hfinishes hle] at h
      cases h
      exact ⟨steps, verdict, hfinishes, rfl⟩
  | @goesOn session session' report h hrest ih =>
    rcases session.goesOn_or_finishes size with hgo | ⟨steps, hle, verdict', hfinishes⟩
    · rw [advance_of_goesOn hready.running hgo] at h
      obtain rfl : session.later size = session' := congrArg Prod.snd h
      obtain ⟨steps, verdict, hend, rfl⟩ := ih (hready.rest hgo)
      exact ⟨size + steps, verdict, (hready.finishes_rest_iff hgo).mp hend,
        (hready.conclude_rest size steps withDump verdict).symm⟩
    · rw [advance_of_finishes hready.running hfinishes hle] at h
      cases h

theorem printsInBatches_of_finishes (hsize : 0 < size) (hready : session.Ready)
    (h : session.Finishes steps verdict) :
    PrintsInBatches size withDump session
      (conclude ⟨session.machine.after steps, none⟩ withDump verdict) := by
  induction steps using Nat.strongRecOn generalizing session with
  | ind steps ih =>
    rcases session.goesOn_or_finishes size with hgo | ⟨steps', hle, verdict', h'⟩
    · -- the end is in a later batch
      obtain ⟨left, rfl⟩ := Nat.exists_eq_add_of_le (Nat.le_of_lt (hgo.lt_of_finishes h))
      rw [hready.conclude_rest]
      exact .goesOn (advance_of_goesOn hready.running hgo)
        (ih left (by omega) (hready.rest hgo) ((hready.finishes_rest_iff hgo).mpr h))
    · obtain ⟨rfl, rfl⟩ := h.unique h'
      have hprints : PrintsInBatches size withDump session (conclude
          ⟨session.machine.after steps, session.remaining.map (· - size)⟩ withDump verdict) :=
        .ends (advance_of_finishes hready.running h hle)
      exact hprints

end

end Session

/-- Running in batches and passing on what was written prints what a run in one go reports. -/
theorem printsInBatches_iff {options : Options} {image : Array Byte} {session : Session} {size : Nat}
    {report : Report} (hsize : 0 < size) (h : Session.prepare options (.ok image) = .ok session) :
    session.PrintsInBatches size options.dump report ↔ Prints options image report := by
  rcases accepted_or_refused options image with ⟨start, limit, haccepted⟩ | ⟨failure, hrefused⟩
  · rw [Session.prepare_of_accepted haccepted] at h
    cases h
    rw [prints_iff_of_accepted haccepted]
    have hready : Session.Ready ⟨booted options image start, limit⟩ :=
      ⟨halted_booted options image start, backed_booted options start haccepted.size 0⟩
    constructor
    · exact Session.finishes_of_printsInBatches hready
    · rintro ⟨steps, verdict, hfinishes, rfl⟩
      exact Session.printsInBatches_of_finishes hsize hready hfinishes
  · rw [Session.prepare_of_refused hrefused] at h
    cases h

end CommandLine

end WordMachine
