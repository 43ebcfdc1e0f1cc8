import WordMachine.Proofs.ReadOverWrite
import WordMachine.Proofs.Stack

/-!
# Last in, first out

Pushes from outside and pops from outside, on a bus of random-access memories. A push lets the stack
pointer wrap around at the beginning of the address space and a pop refuses to move it past the end, so
the pops undo the pushes exactly as far as the last one that wrapped around.

* `pushEach_eq_ok_iff`: the pushes are a row of pushes of the microcode.
* `popEach_of_holds`: the pops of words that are held above the stack pointer.
* `popEach_of_pushEach`: pops undo the pushes of words that fit below the stack pointer.
* `exists_lastWrap`: the last push that wraps around.
* `lastInFirstOut`: pops after any pushes.
-/

namespace WordMachine

/-- A push moves the stack pointer to the other end of the address space. -/
def Core.Wraps (core : Core) : Prop := core.get .sp < core.pushed.get .sp

instance (core : Core) : Decidable core.Wraps :=
  inferInstanceAs (Decidable (core.get .sp < core.pushed.get .sp))

namespace Core

theorem wraps_iff {core : Core} : core.Wraps ↔ (core.get .sp).toNat < 2 := by
  have hlt := (core.get .sp).toNat_lt
  unfold Wraps
  rw [get_pushed, if_pos rfl, UInt16.lt_iff_toNat_lt, UInt16.toNat_sub,
    show (2 : Word).toNat = 2 from rfl]
  omega

/-- Where the stack pointer is after pushes that start anywhere. -/
theorem toNat_sp_lowered_mod (core : Core) (n : Nat) :
    (((core.lowered n).get .sp).toNat + 2 * n) % 0x10000 = (core.get .sp).toNat := by
  have hlt := (core.get .sp).toNat_lt
  rw [get_lowered, if_pos rfl, UInt16.toNat_sub, UInt16.toNat_mul, UInt16.toNat_ofNat',
    show (2 : Word).toNat = 2 from rfl]
  omega

theorem raised_of_lowered (core : Core) (n : Nat) : (core.lowered n).raised n = core := by
  rw [lowered, raised, moved_moved, show -(2 * UInt16.ofNat n) + 2 * .ofNat n = (0 : Word) by grind,
    moved_zero]

/-- Where pops stop: at the address above which there is no whole word. -/
theorem popped_of_top {core : Core} {r : Nat} (h : (core.get .sp).toNat = 0xfffe + r) :
    core.popped = .error (.addressOverflow (0x10000 + r)) := by
  unfold popped effectiveAddress
  rw [h, show (2 : Word).toNat = 2 from rfl, if_neg (by omega),
    show 0xfffe + r + 2 = 0x10000 + r by omega]

/-- The last of `k` pushes that wraps around, if the words of all of them do not fit. -/
theorem exists_lastWrap (core : Core) {k : Nat} (hk : (core.get .sp).toNat < 2 * k) :
    ∃ n < k, (core.lowered n).Wraps ∧ (∀ m, n < m → m < k → ¬(core.lowered m).Wraps) ∧
      ((core.lowered (n + 1)).get .sp).toNat = 0xfffe + (core.get .sp).toNat % 2 ∧
      2 * (k - (n + 1)) ≤ ((core.lowered (n + 1)).get .sp).toNat := by
  have hsp := (core.get .sp).toNat_lt
  -- between two pushes that wrap around there are half as many pushes as addresses
  obtain ⟨q, hq⟩ : ∃ q, (k - 1 - (core.get .sp).toNat / 2) / 0x8000 = q := ⟨_, rfl⟩
  refine ⟨(core.get .sp).toNat / 2 + 0x8000 * q, by omega, ?_, ?_, ?_, ?_⟩
  · have := core.toNat_sp_lowered_mod ((core.get .sp).toNat / 2 + 0x8000 * q)
    have := ((core.lowered ((core.get .sp).toNat / 2 + 0x8000 * q)).get .sp).toNat_lt
    rw [wraps_iff]
    omega
  · intro m hm hmk
    have := core.toNat_sp_lowered_mod m
    have := ((core.lowered m).get .sp).toNat_lt
    rw [wraps_iff]
    omega
  · have := core.toNat_sp_lowered_mod ((core.get .sp).toNat / 2 + 0x8000 * q + 1)
    have := ((core.lowered ((core.get .sp).toNat / 2 + 0x8000 * q + 1)).get .sp).toNat_lt
    omega
  · have := core.toNat_sp_lowered_mod ((core.get .sp).toNat / 2 + 0x8000 * q + 1)
    have := ((core.lowered ((core.get .sp).toNat / 2 + 0x8000 * q + 1)).get .sp).toNat_lt
    omega

end Core

namespace Microcode

variable {core core' : Core} {bus bus' : Bus Ram} {words : List Word}

/-! ## What pushes leave as it was -/

/-- Pushes of words that fit below the stack pointer leave every other byte of the bus alone, and so
    every access to other bytes. -/
theorem answer_after_pushAll (h : (pushAll words).Completes core bus () core' bus')
    (hroom : 2 * words.length ≤ (core.get .sp).toNat) {b : Word} {query : Request}
    (hb : (core.get .sp).toNat + 2 ≤ b.toNat ∨
      b.toNat + query.width + 2 * words.length ≤ (core.get .sp).toNat + 2) :
    (bus'.answer b query).1 = (bus.answer b query).1 := by
  induction words generalizing core bus with
  | nil =>
    obtain ⟨-, -, rfl⟩ := completes_pure.mp h
    rfl
  | cons word words ih =>
    obtain ⟨bus₁, hwrite, hrest⟩ := pushAll_cons_completes_iff.mp h
    rw [List.length_cons] at hroom hb
    have hsp : (core.pushed.get .sp).toNat = (core.get .sp).toNat - 2 := by
      rw [Core.pushed_eq_lowered, Core.toNat_sp_lowered (by omega)]
    rw [ih hrest (by omega) (by omega)]
    have hafter := @Bus.answer_after bus (core.get .sp) b (.writeWord word) query (Or.inr ?_)
    · rwa [show bus.answer (core.get .sp) (.writeWord word) = (.ok (), bus₁) from hwrite] at hafter
    · change (core.get .sp).toNat + 2 ≤ b.toNat ∨ b.toNat + query.width ≤ (core.get .sp).toNat
      omega

/-- Pushes leave every byte of every memory alone in which none of their words is stored. -/
theorem byteAt_of_pushAll (h : (pushAll words).Completes core bus () core' bus')
    (hordered : bus.Ordered) {place : Bus.Place} {i : Nat} {byte : Byte}
    (hstores : ∀ n (hn : n < words.length),
      ¬bus.StoresAt place i (core.get .sp - 2 * .ofNat n) (.writeWord words[n]))
    (hbyte : bus.ByteAt i byte place) : bus'.ByteAt i byte place := by
  induction words generalizing core bus with
  | nil =>
    obtain ⟨-, -, rfl⟩ := completes_pure.mp h
    exact hbyte
  | cons word words ih =>
    obtain ⟨bus₁, hwrite, hrest⟩ := pushAll_cons_completes_iff.mp h
    have hbus : (bus.answer (core.get .sp) (.writeWord word)).2 = bus₁ := congrArg Prod.snd hwrite
    have hlayout := Bus.layout_answer bus (core.get .sp) (.writeWord word)
    have hfirst : ¬bus.StoresAt place i (core.get .sp) (.writeWord word) := by
      have hzero := hstores 0 (Nat.zero_lt_succ _)
      rwa [show core.get .sp - 2 * .ofNat 0 = core.get .sp by simp] at hzero
    have hbyte₁ := Bus.byteAt_answer hordered hfirst hbyte
    rw [hbus] at hlayout hbyte₁
    refine ih hrest (hordered.of_layout hlayout) (fun n hn => ?_) hbyte₁
    rw [Bus.storesAt_iff_of_layout hlayout, Core.get_pushed, if_pos rfl]
    have hnext := hstores (n + 1) (Nat.succ_lt_succ hn)
    rwa [UInt16.ofNat_add, show core.get .sp - 2 * (.ofNat n + .ofNat 1) =
      core.get .sp - 2 - 2 * .ofNat n by grind] at hnext

end Microcode

namespace Machine

/-! ## Pushes from outside -/

section

variable {δ : Type} [Device δ]

/-- Pushes the words of a list from outside, one after the other, up to the first that fails. -/
def pushEach : Machine δ → List Word → Except Fault Unit × Machine δ
  | machine, [] => (.ok (), machine)
  | machine, word :: words =>
    match machine.push word with
    | (.ok _, machine) => machine.pushEach words
    | (.error fault, machine) => (.error fault, machine)

/-- Pops a number of words from outside, one after the other, up to the first that fails. -/
def popEach : Machine δ → Nat → Except Fault (List Word) × Machine δ
  | machine, 0 => (.ok [], machine)
  | machine, count + 1 =>
    match machine.pop with
    | (.ok word, machine) =>
      match machine.popEach count with
      | (.ok words, machine) => (.ok (word :: words), machine)
      | (.error fault, machine) => (.error fault, machine)
    | (.error fault, machine) => (.error fault, machine)

variable {machine pushed : Machine δ} {words : List Word}

/-- Pushes from outside that all succeed do to the core and the bus what pushes of the microcode
    do. -/
theorem pushEach_eq_ok_iff :
    machine.pushEach words = (.ok (), pushed) ↔
      (Microcode.pushAll words).Completes machine.core machine.bus () pushed.core pushed.bus ∧
        pushed.halted = machine.halted ∧ pushed.log = machine.log := by
  induction words generalizing machine with
  | nil =>
    obtain ⟨core, bus, halted, log⟩ := machine
    obtain ⟨core', bus', halted', log'⟩ := pushed
    change (_, _) = (_, _) ↔ Microcode.Completes (pure ()) _ _ _ _ _ ∧ _
    rw [Microcode.completes_pure]
    simp [and_assoc, eq_comm]
  | cons word words ih =>
    obtain ⟨core, bus, halted, log⟩ := machine
    rw [pushEach, push, Microcode.pushAll_cons_completes_iff]
    change _ ↔ (∃ device₁, bus.answer (core.get .sp) (.writeWord word) = (.ok (), device₁) ∧ _) ∧ _
    generalize bus.answer (core.get .sp) (.writeWord word) = outcome
    obtain ⟨_ | _, bus₁⟩ := outcome
    · simp
    · rw [ih]
      simp

theorem pushEach_core (h : machine.pushEach words = (.ok (), pushed)) :
    pushed = { machine with core := machine.core.lowered words.length, bus := pushed.bus } := by
  obtain ⟨hpush, hhalted, hlog⟩ := pushEach_eq_ok_iff.mp h
  obtain ⟨core, bus, halted, log⟩ := pushed
  obtain rfl := Microcode.pushAll_core hpush
  cases hhalted
  cases hlog
  rfl

theorem pushEach_append {first second : List Word} :
    machine.pushEach (first ++ second) = (.ok (), pushed) ↔
      ∃ between, machine.pushEach first = (.ok (), between) ∧
        between.pushEach second = (.ok (), pushed) := by
  induction first generalizing machine with
  | nil => simp [pushEach]
  | cons word first ih =>
    rw [List.cons_append, pushEach, pushEach]
    generalize machine.push word = outcome
    obtain ⟨_ | _, machine₁⟩ := outcome
    · simp
    · exact ih

end

/-! ## Pops from outside -/

section

variable {machine pushed : Machine Ram} {words : List Word}

/-- A pop from outside is a pop of the microcode. -/
theorem pop_of_word? {word : Word}
    (h : machine.bus.word? ((machine.core.get .sp).toNat + 2) = some word) :
    machine.pop = (.ok word, { machine with core := machine.core.raised 1 }) := by
  obtain ⟨core, bus, halted, log⟩ := machine
  have hlt := Bus.lt_of_word?_eq_some h
  have hpopped := Core.popped_eq_ok_iff.mpr ⟨hlt, rfl⟩
  have hread : bus.answer ((core.raised 1).get .sp) .readWord = (.ok word, bus) := by
    rw [Bus.answer_readWord_iff, Core.toNat_sp_raised hlt]
    exact ⟨h, rfl⟩
  rw [pop, hpopped]
  simp only [hread]

/-- Words that are held above the stack pointer are popped one after the other. -/
theorem popEach_of_holds
    (h : machine.bus.Holds ((machine.core.get .sp).toNat + 2) words) :
    machine.popEach words.length =
      (.ok words, { machine with core := machine.core.raised words.length }) := by
  induction words generalizing machine with
  | nil =>
    rw [List.length_nil, Core.raised_zero]
    rfl
  | cons word words ih =>
    obtain ⟨hword, hwords⟩ := h
    have hsp : ((machine.core.raised 1).get .sp).toNat = (machine.core.get .sp).toNat + 2 :=
      Core.toNat_sp_raised (Bus.lt_of_word?_eq_some hword)
    rw [← hsp] at hwords
    have hrest := @ih { machine with core := machine.core.raised 1 } hwords
    rw [Core.raised_raised, Nat.add_comm] at hrest
    rw [List.length_cons, popEach, pop_of_word? hword]
    simp only [hrest]

/-- Pops that all succeed after others have succeeded as well. -/
theorem popEach_add {m n : Nat} {first : List Word} {between : Machine Ram}
    (h : machine.popEach m = (.ok first, between)) :
    machine.popEach (m + n) = match between.popEach n with
      | (.ok second, after) => (.ok (first ++ second), after)
      | (.error fault, after) => (.error fault, after) := by
  induction m generalizing machine first with
  | zero =>
    cases h
    rw [Nat.zero_add]
    generalize between.popEach n = outcome
    obtain ⟨_ | _, after⟩ := outcome <;> rfl
  | succ m ih =>
    rw [popEach] at h
    rw [Nat.succ_add, popEach]
    generalize machine.pop = outcome at h ⊢
    obtain ⟨_ | word, machine₁⟩ := outcome
    · cases h
    · simp only at h ⊢
      split at h
      next first₁ machine₂ hfirst =>
        cases h
        rw [ih hfirst]
        generalize between.popEach n = outcome
        obtain ⟨_ | _, after⟩ := outcome <;> rfl
      next => cases h

/-- Pops give back what was pushed, the last word first, if the words fitted below the stack
    pointer. -/
theorem popEach_of_pushEach (h : machine.pushEach words = (.ok (), pushed))
    (hroom : 2 * words.length ≤ (machine.core.get .sp).toNat) :
    pushed.popEach words.length = (.ok words.reverse, { machine with bus := pushed.bus }) := by
  obtain ⟨hpush, -⟩ := pushEach_eq_ok_iff.mp h
  have hcore := pushEach_core h
  obtain ⟨hholds, -⟩ := Microcode.pushAll_memory hpush hroom
  have hsp : (pushed.core.get .sp).toNat + 2 =
      (machine.core.get .sp).toNat + 2 - 2 * words.length := by
    rw [hcore, Core.toNat_sp_lowered hroom]
    omega
  rw [← hsp] at hholds
  have hpop := popEach_of_holds hholds
  rw [List.length_reverse] at hpop
  rw [hpop, hcore, Core.raised_of_lowered]

theorem pop_of_top {r : Nat} (h : (machine.core.get .sp).toNat = 0xfffe + r) :
    machine.pop = (.error (.addressOverflow (0x10000 + r)), machine) := by
  obtain ⟨core, bus, halted, log⟩ := machine
  rw [pop, Core.popped_of_top h]

/-! ## Pushes and then pops -/

/-- Pops give back the words that were pushed after the last push that wrapped around. The stack
    pointer is then at the end of the address space, where a pop fails and changes nothing. -/
def PopsToLastWrap (machine : Machine Ram) (words : List Word) (pushed : Machine Ram) : Prop :=
  ∃ n < words.length, (machine.pushEach (words.take n)).2.core.Wraps ∧
    (∀ m, n < m → m < words.length → ¬(machine.pushEach (words.take m)).2.core.Wraps) ∧
    ∃ popped, pushed.popEach (words.length - (n + 1)) =
        (.ok (words.drop (n + 1)).reverse, popped) ∧
      (popped.core.get .sp).toNat = 0xfffe + (machine.core.get .sp).toNat % 2 ∧
      popped.pop = (.error (.addressOverflow (0x10000 + (machine.core.get .sp).toNat % 2)), popped)

/-- What pops do after pushes of words, the machine being `machine` before the pushes and `pushed`
    after them. -/
structure LastInFirstOut (machine : Machine Ram) (words : List Word) (pushed : Machine Ram) :
    Prop where
  /-- as many pops as pushes give all the words back and the core as it was, if the words fitted below
      the stack pointer and only then -/
  restored : pushed.popEach words.length = (.ok words.reverse, { machine with bus := pushed.bus }) ↔
    2 * words.length ≤ (machine.core.get .sp).toNat
  succeeds : (∃ popped, (pushed.popEach words.length).1 = .ok popped) ↔
    2 * words.length ≤ (machine.core.get .sp).toNat
  /-- the bytes around the pushed words are then as they were, wherever they are read -/
  bytes : 2 * words.length ≤ (machine.core.get .sp).toNat → ∀ b : Word,
    b.toNat + 2 * words.length < (machine.core.get .sp).toNat + 2 ∨
      (machine.core.get .sp).toNat + 2 ≤ b.toNat →
    (pushed.bus.answer b .readByte).1 = (machine.bus.answer b .readByte).1
  /-- the bytes of the memories in which no word was stored are as they were, on the bus or not -/
  cells : machine.bus.Ordered → ∀ id i byte, machine.bus.ByteAt i byte (.mapped id) →
    (∀ n (hn : n < words.length), ¬machine.bus.StoresAt (.mapped id) i
      (machine.core.get .sp - 2 * .ofNat n) (.writeWord words[n])) →
    pushed.bus.ByteAt i byte (.mapped id)
  wrapped : (machine.core.get .sp).toNat < 2 * words.length → machine.PopsToLastWrap words pushed

/-- The core after the first of many pushes that all succeed. -/
theorem core_pushEach_take (h : machine.pushEach words = (.ok (), pushed)) {n : Nat}
    (hn : n ≤ words.length) : (machine.pushEach (words.take n)).2.core = machine.core.lowered n := by
  rw [← List.take_append_drop n words] at h
  obtain ⟨between, hfirst, -⟩ := pushEach_append.mp h
  rw [hfirst, pushEach_core hfirst, List.length_take, Nat.min_eq_left hn]

/-- Pops go back to the last push that wrapped around and no further. -/
theorem popsToLastWrap (h : machine.pushEach words = (.ok (), pushed))
    (hwraps : (machine.core.get .sp).toNat < 2 * words.length) :
    machine.PopsToLastWrap words pushed := by
  obtain ⟨n, hn, hwrap, hlast, hsp, hroom⟩ := machine.core.exists_lastWrap hwraps
  refine ⟨n, hn, ?_, fun m hm hmk => ?_, ?_⟩
  · rw [core_pushEach_take h (by omega)]
    exact hwrap
  · rw [core_pushEach_take h (by omega)]
    exact hlast m hm hmk
  · -- the words after that push fit below the stack pointer that it leaves
    have hsplit := h
    rw [← List.take_append_drop (n + 1) words] at hsplit
    obtain ⟨between, hfirst, hrest⟩ := pushEach_append.mp hsplit
    have hcore : between.core = machine.core.lowered (n + 1) := by
      have := core_pushEach_take h (n := n + 1) (by omega)
      rwa [hfirst] at this
    rw [← hcore] at hsp hroom
    have hpop := popEach_of_pushEach hrest (by rwa [List.length_drop])
    rw [List.length_drop] at hpop
    exact ⟨_, hpop, hsp, pop_of_top hsp⟩

/-- Pops undo pushes up to the last one that wrapped around. -/
theorem lastInFirstOut (h : machine.pushEach words = (.ok (), pushed)) :
    LastInFirstOut machine words pushed := by
  have hsucceeds : (∃ popped, (pushed.popEach words.length).1 = .ok popped) →
      2 * words.length ≤ (machine.core.get .sp).toNat := by
    rintro ⟨popped, hok⟩
    by_contra hroom
    obtain ⟨n, hn, -, -, stuck, hpop, -, hfault⟩ := popsToLastWrap h (by omega)
    have hall := popEach_add (n := n + 1) hpop
    rw [popEach, hfault, show words.length - (n + 1) + (n + 1) = words.length by omega] at hall
    rw [hall] at hok
    cases hok
  obtain ⟨hpush, -⟩ := pushEach_eq_ok_iff.mp h
  constructor
  case restored =>
    exact ⟨fun hpop => hsucceeds ⟨_, congrArg Prod.fst hpop⟩, popEach_of_pushEach h⟩
  case succeeds =>
    exact ⟨hsucceeds, fun hroom => ⟨_, congrArg Prod.fst (popEach_of_pushEach h hroom)⟩⟩
  case bytes =>
    intro hroom b hb
    refine Microcode.answer_after_pushAll hpush hroom ?_
    rw [Request.width]
    omega
  case cells =>
    intro hordered id i byte hbyte hstores
    exact Microcode.byteAt_of_pushAll hpush hordered hstores hbyte
  case wrapped => exact popsToLastWrap h

end

/-- A machine with memory at both ends of the address space and the stack near the beginning. -/
def nearStart : Machine Ram :=
  ⟨Core.initial.set .sp 3, (Bus.empty.map (.zeroed 16) 0 0xf true).map (.zeroed 17) 0xfff0 0xffff true,
    false, #[]⟩

theorem lastInFirstOut_nearStart :
    nearStart.pushEach [1, 2, 3, 4] = (.ok (), (nearStart.pushEach [1, 2, 3, 4]).2) ∧
      LastInFirstOut nearStart [1, 2, 3, 4] (nearStart.pushEach [1, 2, 3, 4]).2 ∧
      ((nearStart.pushEach [1, 2, 3, 4]).2.popEach 2).1 = .ok [4, 3] ∧
      ((nearStart.pushEach [1, 2, 3, 4]).2.popEach 3).1 = .error (.addressOverflow 0x10001) := by
  have hpush : (nearStart.pushEach [1, 2, 3, 4]).1 = .ok () := by decide +kernel
  exact ⟨Prod.ext hpush rfl, lastInFirstOut (Prod.ext hpush rfl), by decide +kernel,
    by decide +kernel⟩

end Machine

end WordMachine
