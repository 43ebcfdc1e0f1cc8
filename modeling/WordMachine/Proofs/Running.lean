import Mathlib.Logic.Relation
import WordMachine.Proofs.Decoding
import WordMachine.Proofs.Memory

/-!
# Running

`step`, `run` and `runFor` are three ways to go on. A machine goes on for as long as its steps end
with neither a halt nor a fault, and both loops are at the same machine then: the one behind as many
steps. What sets them apart is how they stop. `run` has no bound and says how it ended, `runFor`
stops at its bound too and then says whether the machine is halted.

* `goesOn_or_stops`: a machine goes on for a number of steps, or stops at one of them.
* `run_of_goesOn`, `runFor_of_goesOn`, `Stops.run`, `Stops.runFor`: the loops in either case.
* `exists_halt_of_after`: only a halt instruction sets the halt flag.
* `idle_of_uses`: whatever is done with a machine that has halted, it does nothing more.
* `runs_agree`: the laws of the three ways to go on.
-/

namespace WordMachine

namespace Machine

variable {δ : Type} [Device δ] {machine machine' : Machine δ} {k n : Nat}

/-! ## Going on -/

/-- Each of the next `n` steps ends with neither a halt nor a fault. -/
def GoesOn (machine : Machine δ) (n : Nat) : Prop :=
  ∀ j < n, (machine.after j).step.1 = .ok false

/-- A machine that has gone on for `k` steps halts or fails in the next one. -/
structure Stops (machine : Machine δ) (k : Nat) : Prop where
  goesOn : machine.GoesOn k
  stops : (machine.after k).step.1 ≠ .ok false

theorem GoesOn.zero (machine : Machine δ) : machine.GoesOn 0 := fun _ h => nomatch h

theorem GoesOn.succ (h : machine.GoesOn n) (hn : (machine.after n).step.1 = .ok false) :
    machine.GoesOn (n + 1) := by
  intro j hj
  rcases Nat.lt_succ_iff_lt_or_eq.mp hj with hj | rfl
  · exact h j hj
  · exact hn

theorem GoesOn.of_le (h : machine.GoesOn n) (hk : k ≤ n) : machine.GoesOn k :=
  fun j hj => h j (Nat.lt_of_lt_of_le hj hk)

/-- A machine goes on for `n` steps, or stops at one of them. -/
theorem goesOn_or_stops (machine : Machine δ) (n : Nat) :
    machine.GoesOn n ∨ ∃ k < n, machine.Stops k := by
  induction n with
  | zero => exact Or.inl (.zero machine)
  | succ n ih =>
    rcases ih with hgo | ⟨k, hk, hstops⟩
    · by_cases hn : (machine.after n).step.1 = .ok false
      · exact Or.inl (hgo.succ hn)
      · exact Or.inr ⟨n, Nat.lt_succ_self n, hgo, hn⟩
    · exact Or.inr ⟨k, Nat.lt_succ_of_lt hk, hstops⟩

/-- A machine that goes on is not halted. -/
theorem GoesOn.halted (h : machine.GoesOn n) (hm : machine.halted = false) :
    (machine.after n).halted = false := by
  cases n with
  | zero => exact hm
  | succ n => exact halted_of_step_eq_ok (h n (Nat.lt_succ_self n))

/-! ## Loops -/

theorem runFor_succ_of_ok (h : machine.step.1 = .ok false) (n : Nat) :
    machine.runFor (n + 1) = machine.step.2.runFor n := by
  rw [runFor]
  generalize machine.step = outcome at h ⊢
  obtain ⟨_, next⟩ := outcome
  cases h
  rfl

theorem runFor_succ_of_ne (h : machine.step.1 ≠ .ok false) (n : Nat) :
    machine.runFor (n + 1) = machine.step := by
  rw [runFor]
  generalize machine.step = outcome at h ⊢
  obtain ⟨_ | _ | _, next⟩ := outcome
  · rfl
  · exact absurd rfl h
  · rfl

theorem run_succ_of_ok (h : machine.step.1 = .ok false) (fuel : Nat) :
    machine.run (fuel + 1) = machine.step.2.run fuel := by
  rw [run]
  generalize machine.step = outcome at h ⊢
  obtain ⟨_, next⟩ := outcome
  cases h
  rfl

theorem run_succ_of_ne (h : machine.step.1 ≠ .ok false) (fuel : Nat) :
    machine.run (fuel + 1) = (some (machine.step.1.map fun _ => ()), machine.step.2) := by
  rw [run]
  generalize machine.step = outcome at h ⊢
  obtain ⟨_ | _ | _, next⟩ := outcome
  · rfl
  · exact absurd rfl h
  · rfl

/-- A run for some steps is at the machine behind them if the machine goes on. -/
theorem runFor_add_of_goesOn (h : machine.GoesOn k) (n : Nat) :
    machine.runFor (k + n) = (machine.after k).runFor n := by
  induction k generalizing n with
  | zero => rw [Nat.zero_add, after]
  | succ k ih =>
    rw [show k + 1 + n = k + (n + 1) by omega, ih (h.of_le (Nat.le_succ k)),
      runFor_succ_of_ok (h k (Nat.lt_succ_self k)), after_succ]

theorem run_add_of_goesOn (h : machine.GoesOn k) (fuel : Nat) :
    machine.run (k + fuel) = (machine.after k).run fuel := by
  induction k generalizing fuel with
  | zero => rw [Nat.zero_add, after]
  | succ k ih =>
    rw [show k + 1 + fuel = k + (fuel + 1) by omega, ih (h.of_le (Nat.le_succ k)),
      run_succ_of_ok (h k (Nat.lt_succ_self k)), after_succ]

theorem runFor_of_goesOn (h : machine.GoesOn n) :
    machine.runFor n = (.ok (machine.after n).halted, machine.after n) := runFor_add_of_goesOn h 0

theorem run_of_goesOn (h : machine.GoesOn n) : machine.run n = (none, machine.after n) :=
  run_add_of_goesOn h 0

theorem Stops.runFor (h : machine.Stops k) (hk : k < n) :
    machine.runFor n = (machine.after k).step := by
  obtain ⟨m, rfl⟩ := Nat.exists_eq_add_of_lt hk
  rw [Nat.add_assoc, runFor_add_of_goesOn h.goesOn, runFor_succ_of_ne h.stops]

theorem Stops.run (h : machine.Stops k) (hk : k < n) :
    machine.run n =
      (some ((machine.after k).step.1.map fun _ => ()), machine.after (k + 1)) := by
  obtain ⟨m, rfl⟩ := Nat.exists_eq_add_of_lt hk
  rw [Nat.add_assoc, run_add_of_goesOn h.goesOn, run_succ_of_ne h.stops, after_succ]

/-- Wherever a loop stops, the machine is behind a number of steps. -/
theorem exists_after_run (machine : Machine δ) (fuel : Nat) :
    ∃ k, (machine.run fuel).2 = machine.after k := by
  rcases goesOn_or_stops machine fuel with hgo | ⟨k, hk, hstops⟩
  · exact ⟨fuel, congrArg Prod.snd (run_of_goesOn hgo)⟩
  · exact ⟨k + 1, congrArg Prod.snd (hstops.run hk)⟩

theorem exists_after_runFor (machine : Machine δ) (steps : Nat) :
    ∃ k, (machine.runFor steps).2 = machine.after k := by
  rcases goesOn_or_stops machine steps with hgo | ⟨k, hk, hstops⟩
  · exact ⟨steps, congrArg Prod.snd (runFor_of_goesOn hgo)⟩
  · exact ⟨k + 1, congrArg Prod.snd (hstops.runFor hk)⟩

/-! ## The end of a run -/

/-- A machine that is run to its end performs `k` instructions, the last of which halts it or fails.
    A machine that has halted performs none. -/
inductive Ends (machine : Machine δ) : Nat → Except Fault Unit → Prop
  | halted (hm : machine.halted = true) : Ends machine 0 (.ok ())
  | stops {k : Nat} {outcome : Except Fault Unit} (hm : machine.halted = false)
      (hgo : machine.GoesOn k) (hlast : (machine.after k).step.1 = outcome.map fun _ => true) :
      Ends machine (k + 1) outcome

theorem stops_of_step_eq_map {outcome : Except Fault Unit} (hgo : machine.GoesOn k)
    (hlast : (machine.after k).step.1 = outcome.map fun _ => true) : machine.Stops k := by
  refine ⟨hgo, ?_⟩
  rw [hlast]
  cases outcome <;> exact nofun

theorem after_of_halted (hm : machine.halted = true) (n : Nat) : machine.after n = machine := by
  induction n with
  | zero => rfl
  | succ n ih => rw [after_succ, ih, step_of_halted hm]

/-- A run ends with the outcome of its last instruction if it has fuel for it. -/
theorem exists_run_iff {outcome : Except Fault Unit} {final : Machine δ} :
    (∃ fuel, machine.run fuel = (some outcome, final)) ↔
      ∃ k, machine.Ends k outcome ∧ final = machine.after k := by
  constructor
  · rintro ⟨fuel, hrun⟩
    rcases goesOn_or_stops machine fuel with hgo | ⟨k, hk, hstops⟩
    · rw [run_of_goesOn hgo] at hrun
      cases hrun
    · rw [hstops.run hk] at hrun
      cases hrun
      cases hm : machine.halted with
      | true =>
        rw [after_of_halted hm, after_of_halted hm, step_of_halted hm]
        exact ⟨0, .halted hm, rfl⟩
      | false =>
        refine ⟨k + 1, .stops hm hstops.goesOn ?_, rfl⟩
        have hne := hstops.stops
        generalize (machine.after k).step.1 = result at hne ⊢
        obtain _ | _ | _ := result
        · rfl
        · exact absurd rfl hne
        · rfl
  · rintro ⟨k, hends, rfl⟩
    cases hends with
    | halted hm => exact ⟨1, by rw [run, step_of_halted hm, after]⟩
    | @stops k outcome hm hgo hlast =>
      refine ⟨k + 1, ?_⟩
      rw [(stops_of_step_eq_map hgo hlast).run (Nat.lt_succ_self k), hlast]
      cases outcome <;> rfl

theorem Ends.runFor_of_le {outcome : Except Fault Unit} (h : machine.Ends k outcome) (hn : k ≤ n) :
    machine.runFor n = (outcome.map fun _ => true, machine.after k) := by
  cases h with
  | halted hm => exact runFor_of_halted hm n
  | stops hm hgo hlast =>
    rw [(stops_of_step_eq_map hgo hlast).runFor hn, ← hlast, after_succ]

theorem Ends.runFor_of_lt {outcome : Except Fault Unit} (h : machine.Ends k outcome) (hn : n < k) :
    machine.runFor n = (.ok false, machine.after n) := by
  cases h with
  | halted hm => cases hn
  | stops hm hgo hlast =>
    have hgo' := hgo.of_le (Nat.le_of_lt_succ hn)
    rw [runFor_of_goesOn hgo', hgo'.halted hm]

/-! ## The halt flag -/

/-- Only a halt instruction sets the halt flag. -/
theorem instruction?_of_halted_step (hm : machine.halted = false)
    (hnext : machine.step.2.halted = true) : machine.instruction? = some .halt := by
  cases hstep : machine.step.1 with
  | error fault =>
    rw [(core_of_step_eq_error hstep).2, hm] at hnext
    cases hnext
  | ok b =>
    obtain ⟨i, bus, hi, -, -, hb⟩ := performs_of_step hm hstep
    rw [halted_of_step_eq_ok hstep] at hnext
    rw [hnext] at hb
    rw [hi]
    cases i with
    | halt => rfl
    | _ => cases hb

/-- A machine that is halted after some steps has performed a halt instruction, and nothing since. -/
theorem exists_halt_of_after (hm : machine.halted = false) (hn : (machine.after n).halted = true) :
    ∃ k, (machine.after k).halted = false ∧ (machine.after k).instruction? = some .halt ∧
      machine.after n = machine.after (k + 1) := by
  induction n with
  | zero =>
    rw [after, hm] at hn
    cases hn
  | succ n ih =>
    cases hbefore : (machine.after n).halted with
    | false => exact ⟨n, hbefore, instruction?_of_halted_step hbefore hn, rfl⟩
    | true =>
      rw [after_succ, step_of_halted hbefore]
      exact ih hbefore

/-- What can be done with a machine from outside. -/
inductive Use : Machine δ → Machine δ → Prop
  | step (machine : Machine δ) : Use machine machine.step.2
  | run (machine : Machine δ) (fuel : Nat) : Use machine (machine.run fuel).2
  | runFor (machine : Machine δ) (steps : Nat) : Use machine (machine.runFor steps).2
  | setRegister {machine machine' : Machine δ} (name : String) (value : Word)
      (h : machine.setRegister name value = .ok machine') : Use machine machine'
  | push (machine : Machine δ) (value : Word) : Use machine (machine.push value).2
  | pop (machine : Machine δ) : Use machine machine.pop.2
  | map (machine : Machine δ) (device : δ) (first last : Word) (remap : Bool) :
      Use machine (machine.map device first last remap).2
  | unmap (machine : Machine δ) (id : Nat) : Use machine (machine.unmap id).2
  | access (machine : Machine δ) (address : Word) (request : Request) :
      Use machine (machine.access address request).2
  | write (machine : Machine δ) (address : Word) (bytes : List Byte) :
      Use machine (machine.write address bytes).2
  | view (machine : Machine δ) (address : Word) (count : Nat) :
      Use machine (machine.view address count).2

/-- Unless a machine makes steps, its halt flag stays as it is, and it logs one entry at most, which is
    about its regions. -/
theorem Use.after_or_log (h : machine.Use machine') :
    (∃ k, machine' = machine.after k) ∨
      machine'.halted = machine.halted ∧
        (machine'.log = machine.log ∨
          ∃ entry : LogEntry, entry.level = .debug ∧ machine'.log = machine.log.push entry) := by
  cases h with
  | step => exact Or.inl ⟨1, rfl⟩
  | run fuel => exact Or.inl (exists_after_run machine fuel)
  | runFor steps => exact Or.inl (exists_after_runFor machine steps)
  | setRegister name value h =>
    rw [Machine.setRegister] at h
    cases hname : Register.ofName name with
    | error fault =>
      rw [hname] at h
      cases h
    | ok r =>
      rw [hname] at h
      cases h
      exact Or.inr ⟨rfl, Or.inl rfl⟩
  | push value =>
    rw [Machine.push]
    split <;> exact Or.inr ⟨rfl, Or.inl rfl⟩
  | pop =>
    rw [Machine.pop]
    split <;> exact Or.inr ⟨rfl, Or.inl rfl⟩
  | map device first last remap => exact Or.inr ⟨rfl, Or.inr ⟨_, rfl, rfl⟩⟩
  | unmap id =>
    rw [Machine.unmap]
    split
    · exact Or.inr ⟨rfl, Or.inr ⟨_, rfl, rfl⟩⟩
    · exact Or.inr ⟨rfl, Or.inl rfl⟩
  | access address request => exact Or.inr ⟨rfl, Or.inl rfl⟩
  | write address bytes => exact Or.inr ⟨rfl, Or.inl rfl⟩
  | view address count => exact Or.inr ⟨rfl, Or.inl rfl⟩

/-- The halt flag stays as it is unless the machine makes steps. -/
theorem Use.after_or_halted (h : machine.Use machine') :
    (∃ k, machine' = machine.after k) ∨ machine'.halted = machine.halted :=
  h.after_or_log.imp_right And.left

/-- A machine that has halted says so whatever it is asked to do, and stays as it is. -/
structure Idle (machine : Machine δ) : Prop where
  halted : machine.halted = true
  step : machine.step = (.ok true, machine)
  run : ∀ fuel, machine.run (fuel + 1) = (some (.ok ()), machine)
  runFor : ∀ steps, machine.runFor steps = (.ok true, machine)

theorem idle_of_halted (hm : machine.halted = true) : machine.Idle where
  halted := hm
  step := step_of_halted hm
  run fuel := by rw [Machine.run, step_of_halted hm]
  runFor := runFor_of_halted hm

/-- Nothing that is done with a machine that has halted sets it going again. -/
theorem idle_of_uses (hm : machine.halted = true) (h : Relation.ReflTransGen Use machine machine') :
    machine'.Idle := by
  induction h with
  | refl => exact idle_of_halted hm
  | tail _ huse ih =>
    rcases huse.after_or_halted with ⟨k, rfl⟩ | hsame
    · rw [after_of_halted ih.halted]
      exact ih
    · exact idle_of_halted (hsame.trans ih.halted)

/-! ## The laws -/

/-- How the ways to go on with a machine relate to each other. -/
structure RunLaws (machine : Machine δ) : Prop where
  /-- a run for `n` steps stops at the first one that halts or fails, or makes all of them -/
  stops : ∀ n, (∃ k < n, machine.Stops k ∧ machine.runFor n = (machine.after k).step) ∨
    machine.GoesOn n ∧ machine.runFor n = (.ok (machine.after n).halted, machine.after n)
  /-- a run may be made in two parts -/
  add : ∀ n m, machine.runFor (n + m) =
    match machine.runFor n with
    | (.ok _, machine) => machine.runFor m
    | (.error fault, machine) => (.error fault, machine)
  /-- a run without a bound ends where the machine does -/
  run : ∀ outcome final, (∃ fuel, machine.run fuel = (some outcome, final)) ↔
    ∃ k, machine.Ends k outcome ∧ final = machine.after k
  /-- so does a run whose bound is large enough -/
  atEnd : ∀ k outcome, machine.Ends k outcome →
    ∀ n ≥ k, machine.runFor n = (outcome.map fun _ => true, machine.after k)
  /-- a run whose bound is smaller makes that many steps -/
  beforeEnd : ∀ k outcome, machine.Ends k outcome →
    ∀ n < k, machine.runFor n = (.ok false, machine.after n)
  /-- the halt flag is set by a halt instruction only -/
  halts : ∀ machine', Use machine machine' → machine.halted = false → machine'.halted = true →
    ∃ k, (machine.after k).halted = false ∧ (machine.after k).instruction? = some .halt ∧
      machine' = machine.after (k + 1)
  /-- a machine that has halted stays so and does nothing, whatever is done with it in between -/
  idle : machine.halted = true →
    ∀ machine', Relation.ReflTransGen Use machine machine' → machine'.Idle

/-- The ways to go on agree on every machine. -/
theorem runs_agree (machine : Machine δ) : machine.RunLaws where
  stops n := by
    rcases goesOn_or_stops machine n with hgo | ⟨k, hk, hstops⟩
    · exact Or.inr ⟨hgo, runFor_of_goesOn hgo⟩
    · exact Or.inl ⟨k, hk, hstops, hstops.runFor hk⟩
  add := runFor_add machine
  run _ _ := exists_run_iff
  atEnd _ _ hends _ hn := hends.runFor_of_le hn
  beforeEnd _ _ hends _ hn := hends.runFor_of_lt hn
  halts machine' huse hm hm' := by
    rcases huse.after_or_halted with ⟨n, rfl⟩ | hsame
    · exact exists_halt_of_after hm hm'
    · rw [hsame, hm] at hm'
      cases hm'
  idle hm _ huses := idle_of_uses hm huses

/-- A machine that is to push a word and to halt. -/
def pushAndHalt : Machine Ram := loaded #[0x17, 0, 5, 0xff]

theorem runs_pushAndHalt :
    (∃ fuel, pushAndHalt.run fuel = (some (.ok ()), pushAndHalt.after 2)) ∧
      pushAndHalt.runFor 100 = (.ok true, pushAndHalt.after 2) ∧
      pushAndHalt.runFor 1 = (.ok false, pushAndHalt.after 1) := by
  have hlaws := runs_agree pushAndHalt
  have hends : pushAndHalt.Ends 2 (.ok ()) :=
    .stops rfl (GoesOn.zero _ |>.succ (by decide +kernel)) (by decide +kernel)
  exact ⟨(hlaws.run _ _).mpr ⟨2, hends, rfl⟩, hlaws.atEnd 2 _ hends 100 (by decide),
    hlaws.beforeEnd 2 _ hends 1 (by decide)⟩

end Machine

end WordMachine
