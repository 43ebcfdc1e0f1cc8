import WordMachine.Proofs.Decoding
import WordMachine.Proofs.Memory

/-!
# The stack

What pushes and pops do, one by one, in a row and in the frame of a subroutine. The effect on the
core is the same for every device; the words stored and loaded are stated for buses of
random-access memories.

* `pushAll_core`, `pushAll_memory`: a row of pushes.
* `drop_completes_iff`, `loads_completes_iff`: a row of pops.
* `enter_completes_iff`, `holds_of_enter`: a call stores `Core.frame`.
* `leave_completes_iff`: a return loads what stands above the frame pointer, whatever it is.
-/

namespace WordMachine

namespace Core

/-! ## Cores -/

/-- The core with the stack pointer moved and the counter changed with it. -/
def moved (core : Core) (distance : Word) : Core :=
  ⟨core.registers.set .sp (core.get .sp + distance), core.frameSize - distance⟩

/-- The core after a number of pushes. -/
def lowered (core : Core) (n : Nat) : Core := core.moved (-(2 * .ofNat n))

/-- The core after a number of pops. -/
def raised (core : Core) (n : Nat) : Core := core.moved (2 * .ofNat n)

/-- The core after values were written to registers. -/
def setAll (core : Core) : List (Register × Word) → Core
  | [] => core
  | (r, word) :: rest => (core.set r word).setAll rest

@[simp] theorem get_moved (core : Core) (distance : Word) (r : Register) :
    (core.moved distance).get r = if .sp = r then core.get .sp + distance else core.get r :=
  core.registers.get_set .sp r _

@[simp] theorem frameSize_moved (core : Core) (distance : Word) :
    (core.moved distance).frameSize = core.frameSize - distance := rfl

theorem moved_zero (core : Core) : core.moved 0 = core := by
  apply ext_get
  · intro r
    by_cases h : Register.sp = r
    · subst h
      simp
    · simp [h]
  · simp

theorem moved_moved (core : Core) (d e : Word) : (core.moved d).moved e = core.moved (d + e) := by
  apply ext_get
  · intro r
    by_cases h : Register.sp = r
    · subst h
      simp [UInt16.add_assoc]
    · simp [h]
  · simp only [frameSize_moved]
    grind

theorem set_moved (core : Core) {r : Register} (h : r ≠ .sp) (word distance : Word) :
    (core.set r word).moved distance = (core.moved distance).set r word := by
  apply ext_get
  · intro s
    by_cases hs : Register.sp = s
    · subst hs
      simp [h]
    · simp [hs]
  · rfl

@[simp] theorem get_lowered (core : Core) (n : Nat) (r : Register) :
    (core.lowered n).get r = if .sp = r then core.get .sp - 2 * .ofNat n else core.get r := by
  rw [lowered, get_moved, UInt16.sub_eq_add_neg]

@[simp] theorem frameSize_lowered (core : Core) (n : Nat) :
    (core.lowered n).frameSize = core.frameSize + 2 * .ofNat n := by
  rw [lowered, frameSize_moved, UInt16.sub_eq_add_neg, UInt16.neg_neg]

@[simp] theorem get_raised (core : Core) (n : Nat) (r : Register) :
    (core.raised n).get r = if .sp = r then core.get .sp + 2 * .ofNat n else core.get r :=
  core.get_moved _ r

@[simp] theorem frameSize_raised (core : Core) (n : Nat) :
    (core.raised n).frameSize = core.frameSize - 2 * .ofNat n := rfl

/-- Pushes move the stack pointer down as long as it does not wrap around. -/
theorem toNat_sp_lowered {core : Core} {n : Nat} (h : 2 * n ≤ (core.get .sp).toNat) :
    ((core.lowered n).get .sp).toNat = (core.get .sp).toNat - 2 * n := by
  have hlt := (core.get .sp).toNat_lt
  rw [get_lowered, if_pos rfl, UInt16.toNat_sub, UInt16.toNat_mul, UInt16.toNat_ofNat',
    show (2 : Word).toNat = 2 from rfl]
  omega

/-- Pops move the stack pointer up as long as it stays inside the address space. -/
theorem toNat_sp_raised {core : Core} {n : Nat} (h : (core.get .sp).toNat + 2 * n < 0x10000) :
    ((core.raised n).get .sp).toNat = (core.get .sp).toNat + 2 * n := by
  rw [get_raised, if_pos rfl, UInt16.toNat_add, UInt16.toNat_mul, UInt16.toNat_ofNat',
    show (2 : Word).toNat = 2 from rfl]
  omega

theorem lowered_zero (core : Core) : core.lowered 0 = core := core.moved_zero

theorem raised_zero (core : Core) : core.raised 0 = core := core.moved_zero

theorem raised_raised (core : Core) (m n : Nat) :
    (core.raised m).raised n = core.raised (m + n) := by
  rw [raised, raised, raised, moved_moved, UInt16.ofNat_add, UInt16.mul_add]

theorem lowered_lowered (core : Core) (m n : Nat) :
    (core.lowered m).lowered n = core.lowered (m + n) := by
  rw [lowered, lowered, lowered, moved_moved, UInt16.ofNat_add, UInt16.mul_add, UInt16.neg_add,
    UInt16.sub_eq_add_neg]

theorem pushed_eq_lowered (core : Core) : core.pushed = core.lowered 1 := by
  apply ext_get
  · intro r
    rw [get_pushed, get_lowered]
    rfl
  · rw [frameSize_pushed, frameSize_lowered]
    rfl

theorem pushed_lowered (core : Core) (n : Nat) : core.pushed.lowered n = core.lowered (n + 1) := by
  rw [pushed_eq_lowered, lowered_lowered, Nat.add_comm]

theorem lowered_pushed (core : Core) (n : Nat) :
    (core.lowered n).pushed = core.lowered (n + 1) := by
  rw [pushed_eq_lowered, lowered_lowered]

theorem set_raised (core : Core) {r : Register} (h : r ≠ .sp) (word : Word) (n : Nat) :
    (core.set r word).raised n = (core.raised n).set r word := core.set_moved h word _

theorem setAll_raised (core : Core) {l : List (Register × Word)} (h : ∀ p ∈ l, p.1 ≠ .sp)
    (n : Nat) : (core.setAll l).raised n = (core.raised n).setAll l := by
  induction l generalizing core with
  | nil => rfl
  | cons p l ih =>
    obtain ⟨r, word⟩ := p
    rw [setAll, setAll, ih _ fun p hp => h p (List.mem_cons_of_mem _ hp),
      set_raised core (h (r, word) List.mem_cons_self)]

theorem get_setAll_of_notMem (core : Core) {l : List (Register × Word)} {s : Register}
    (h : ∀ p ∈ l, p.1 ≠ s) : (core.setAll l).get s = core.get s := by
  induction l generalizing core with
  | nil => rfl
  | cons p l ih =>
    obtain ⟨r, word⟩ := p
    rw [setAll, ih _ fun p hp => h p (List.mem_cons_of_mem _ hp), get_set,
      if_neg (h (r, word) List.mem_cons_self)]

@[simp] theorem frameSize_setAll (core : Core) (l : List (Register × Word)) :
    (core.setAll l).frameSize = core.frameSize := by
  induction l generalizing core with
  | nil => rfl
  | cons p l ih => exact ih (core.set p.1 p.2)

theorem popped_eq_ok_iff {core core' : Core} :
    core.popped = .ok core' ↔ (core.get .sp).toNat + 2 < 0x10000 ∧ core' = core.raised 1 := by
  unfold popped effectiveAddress
  rw [show (2 : Word).toNat = 2 from rfl]
  split
  next top h =>
    split at h
    next hlt =>
      cases h
      rw [Except.ok.injEq, eq_comm]
      exact (and_iff_right hlt).symm
    next => cases h
  next h =>
    split at h
    next => cases h
    next hlt => simp [hlt]

end Core

namespace Microcode

/-! ## Pushes -/

section

variable {δ : Type} [Device δ] {core core' : Core} {device device' : δ}

theorem push_completes_iff {word : Word} {u : Unit} :
    (push word).Completes core device u core' device' ↔
      Device.answer device (core.get .sp) (.writeWord word) = (.ok (), device') ∧
        core' = core.pushed := by
  rw [push, completes_get_bind, completes_access_bind]
  constructor
  · rintro ⟨⟨⟩, device₁, h, hcore⟩
    rw [completes_core_bind, completes_setCore] at hcore
    obtain ⟨rfl, rfl⟩ := hcore
    exact ⟨h, rfl⟩
  · rintro ⟨h, rfl⟩
    refine ⟨(), device', h, ?_⟩
    rw [completes_core_bind, completes_setCore]
    exact ⟨rfl, rfl⟩

/-- Stores the words of a list at the top of the stack, one after the other. -/
def pushAll (words : List Word) : Microcode Unit := words.forM push

theorem pushAll_cons_completes_iff {word : Word} {words : List Word} :
    (pushAll (word :: words)).Completes core device () core' device' ↔
      ∃ device₁, Device.answer device (core.get .sp) (.writeWord word) = (.ok (), device₁) ∧
        (pushAll words).Completes core.pushed device₁ () core' device' := by
  change (push word >>= fun _ => pushAll words).Completes _ _ _ _ _ ↔ _
  rw [completes_bind]
  constructor
  · rintro ⟨_, _, device₁, hpush, hrest⟩
    obtain ⟨h, rfl⟩ := push_completes_iff.mp hpush
    exact ⟨device₁, h, hrest⟩
  · rintro ⟨device₁, h, hrest⟩
    exact ⟨(), _, device₁, push_completes_iff.mpr ⟨h, rfl⟩, hrest⟩

theorem bind_apply_congr {α β : Type} {code code' : Microcode α} {next : α → Microcode β}
    {core : Core} (h : code core = code' core) : (code >>= next) core = (code' >>= next) core :=
  congrArg (fun p : BusProgram (α × Core) => p.bind fun r => next r.1 r.2) h

/-- A row of pushes leaves the stack pointer below all the words. -/
theorem pushAll_ensures (core : Core) (words : List Word) :
    (pushAll words).Ensures core fun _ core' => core' = core.lowered words.length := by
  induction words generalizing core with
  | nil => exact core.lowered_zero.symm
  | cons word words ih =>
    have hrest := ih core.pushed
    rw [Core.pushed_lowered] at hrest
    exact fun _ => hrest

theorem pushAll_core {words : List Word}
    (h : (pushAll words).Completes core device () core' device') : core' = core.lowered words.length :=
  (pushAll_ensures core words).of_completes h

/-- Pushing registers one by one pushes the values that they have at the start. -/
theorem saves_apply {rs : List Register} (hsp : .sp ∉ rs) (core : Core) :
    (rs.forM fun r => do push (← get r)) core = pushAll (rs.map core.get) core := by
  induction rs generalizing core with
  | nil => rfl
  | cons r rs ih =>
    obtain ⟨hr, hrs⟩ := not_or.mp fun h => hsp (List.mem_cons.mpr h)
    have hkeep : rs.map core.pushed.get = rs.map core.get := by
      refine List.map_congr_left fun s hs => ?_
      rw [Core.get_pushed, if_neg (Ne.symm (ne_of_mem_of_not_mem hs hrs))]
    change BusProgram.access (core.get .sp) (.writeWord (core.get r)) (fun _ =>
        (rs.forM fun r => do push (← get r)) core.pushed) =
      .access (core.get .sp) (.writeWord (core.get r)) fun _ => pushAll (rs.map core.get) core.pushed
    rw [ih hrs, hkeep]

end

/-- What a row of pushes stores on a bus of memories, as long as the stack does not run below the
    beginning of the address space. -/
theorem pushAll_memory {core core' : Core} {bus bus' : Bus Ram} {words : List Word}
    (h : (pushAll words).Completes core bus () core' bus')
    (hroom : 2 * words.length ≤ (core.get .sp).toNat) :
    bus'.Holds ((core.get .sp).toNat + 2 - 2 * words.length) words.reverse ∧
      ∀ a, (core.get .sp).toNat + 2 ≤ a ∨ a + 2 * words.length ≤ (core.get .sp).toNat →
        bus'.word? a = bus.word? a := by
  induction words generalizing core bus with
  | nil =>
    obtain ⟨-, -, rfl⟩ := completes_pure.mp h
    exact ⟨trivial, fun _ _ => rfl⟩
  | cons word words ih =>
    obtain ⟨bus₁, hwrite, hrest⟩ := pushAll_cons_completes_iff.mp h
    rw [List.length_cons] at hroom ⊢
    have hsp : (core.pushed.get .sp).toNat = (core.get .sp).toNat - 2 := by
      rw [Core.pushed_eq_lowered, Core.toNat_sp_lowered (by omega)]
    obtain ⟨hholds, hframe⟩ := ih hrest (by omega)
    rw [hsp] at hholds hframe
    constructor
    · rw [List.reverse_cons, Bus.holds_append, List.length_reverse]
      refine ⟨?_, ?_, trivial⟩
      · rwa [show (core.get .sp).toNat - 2 + 2 - 2 * words.length =
          (core.get .sp).toNat + 2 - 2 * (words.length + 1) by omega] at hholds
      · rw [show (core.get .sp).toNat + 2 - 2 * (words.length + 1) + 2 * words.length =
          (core.get .sp).toNat by omega, hframe _ (by omega)]
        exact Bus.word?_of_writeWord hwrite
    · intro a ha
      rw [hframe a (by omega)]
      exact Bus.word?_of_writeWord_of_ne hwrite (by omega)

/-! ## Pops -/

/-- The word that is loaded is the one above the stack pointer, which must not be at the end. -/
theorem pop_completes_iff_answer {δ : Type} [Device δ] {core core' : Core} {device device' : δ}
    {word : Word} :
    pop.Completes core device word core' device' ↔
      (core.get .sp).toNat + 2 < 0x10000 ∧
        Device.answer device (core.get .sp + 2) .readWord = (.ok word, device') ∧
        core' = core.raised 1 := by
  have htop : (core.raised 1).get .sp = core.get .sp + 2 := by
    rw [Core.get_raised, if_pos rfl]
    rfl
  rw [pop, completes_core_bind, completes_check_bind]
  constructor
  · rintro ⟨core₁, hpopped, hread⟩
    obtain ⟨hlt, rfl⟩ := Core.popped_eq_ok_iff.mp hpopped
    rw [completes_setCore_bind, completes_get_bind, completes_access, htop] at hread
    exact ⟨hlt, hread⟩
  · rintro ⟨hlt, hread⟩
    refine ⟨core.raised 1, Core.popped_eq_ok_iff.mpr ⟨hlt, rfl⟩, ?_⟩
    rw [completes_setCore_bind, completes_get_bind, completes_access, htop]
    exact hread

section

variable {core core' : Core} {bus bus' : Bus Ram}

theorem pop_completes_iff {word : Word} :
    pop.Completes core bus word core' bus' ↔
      bus.word? ((core.get .sp).toNat + 2) = some word ∧ core' = core.raised 1 ∧ bus' = bus := by
  have htop : (core.get .sp).toNat + 2 < 0x10000 →
      (core.get .sp + 2).toNat = (core.get .sp).toNat + 2 := by
    intro hlt
    rw [UInt16.toNat_add, show (2 : Word).toNat = 2 from rfl]
    omega
  rw [pop_completes_iff_answer]
  constructor
  · rintro ⟨hlt, hread, rfl⟩
    obtain ⟨hword, rfl⟩ := Bus.answer_readWord_iff.mp hread
    rw [htop hlt] at hword
    exact ⟨hword, rfl, rfl⟩
  · rintro ⟨hword, rfl, rfl⟩
    have hlt := Bus.lt_of_word?_eq_some hword
    rw [← htop hlt] at hword
    exact ⟨hlt, Bus.answer_readWord_iff.mpr ⟨hword, rfl⟩, rfl⟩

theorem drop_completes_iff {n : Nat} :
    (drop n).Completes core bus () core' bus' ↔
      (∃ words, words.length = n ∧ bus.Holds ((core.get .sp).toNat + 2) words) ∧
        core' = core.raised n ∧ bus' = bus := by
  induction n generalizing core with
  | zero =>
    rw [drop, completes_pure, Core.raised_zero]
    exact ⟨fun h => ⟨⟨[], rfl, trivial⟩, h.2⟩, fun h => ⟨rfl, h.2⟩⟩
  | succ n ih =>
    rw [drop, completes_bind]
    have hsp : (core.get .sp).toNat + 2 < 0x10000 →
        ((core.raised 1).get .sp).toNat = (core.get .sp).toNat + 2 :=
      fun hlt => Core.toNat_sp_raised hlt
    constructor
    · rintro ⟨word, _, _, hpop, hrest⟩
      obtain ⟨hword, rfl, rfl⟩ := pop_completes_iff.mp hpop
      obtain ⟨⟨words, hlen, hwords⟩, rfl, rfl⟩ := ih.mp hrest
      rw [hsp (Bus.lt_of_word?_eq_some hword)] at hwords
      rw [Core.raised_raised, Nat.add_comm 1 n]
      exact ⟨⟨word :: words, by rw [List.length_cons, hlen], hword, hwords⟩, rfl, rfl⟩
    · rintro ⟨⟨_ | ⟨word, words⟩, hlen, hholds⟩, rfl, rfl⟩
      · cases hlen
      · obtain ⟨hword, hwords⟩ := hholds
        rw [← hsp (Bus.lt_of_word?_eq_some hword)] at hwords
        refine ⟨word, core.raised 1, bus', pop_completes_iff.mpr ⟨hword, rfl, rfl⟩, ?_⟩
        rw [ih, Core.raised_raised, Nat.add_comm 1 n]
        exact ⟨⟨words, Nat.succ.inj hlen, hwords⟩, rfl, rfl⟩

/-- Loads a word into each register of a list. -/
def loads (rs : List Register) : Microcode Unit := rs.forM fun r => do set r (← pop)

theorem loads_completes_iff {rs : List Register} (hsp : .sp ∉ rs) :
    (loads rs).Completes core bus () core' bus' ↔
      ∃ words, words.length = rs.length ∧ bus.Holds ((core.get .sp).toNat + 2) words ∧
        core' = (core.raised rs.length).setAll (rs.zip words) ∧ bus' = bus := by
  induction rs generalizing core with
  | nil =>
    rw [List.length_nil, Core.raised_zero]
    constructor
    · intro h
      obtain ⟨-, rfl, rfl⟩ := completes_pure.mp h
      exact ⟨[], rfl, trivial, rfl, rfl⟩
    · rintro ⟨words, -, -, rfl, rfl⟩
      exact completes_pure.mpr ⟨rfl, rfl, rfl⟩
  | cons r rs ih =>
    obtain ⟨hr, hrs⟩ := not_or.mp fun h => hsp (List.mem_cons.mpr h)
    have hne : r ≠ .sp := Ne.symm hr
    -- the loaded register is not the stack pointer, which therefore moves by one word
    have htop : ∀ word, (core.get .sp).toNat + 2 < 0x10000 →
        (((core.raised 1).set r word).get .sp).toNat = (core.get .sp).toNat + 2 := by
      intro word hlt
      rw [Core.get_set, if_neg hne]
      exact Core.toNat_sp_raised hlt
    change ((do set r (← pop)) >>= fun _ => loads rs).Completes _ _ _ _ _ ↔ _
    rw [completes_bind]
    constructor
    · rintro ⟨_, _, _, hload, hrest⟩
      obtain ⟨word, _, _, hpop, hset⟩ := completes_bind.mp hload
      obtain ⟨rfl, rfl⟩ := completes_set.mp hset
      obtain ⟨hword, rfl, rfl⟩ := pop_completes_iff.mp hpop
      obtain ⟨words, hlen, hwords, rfl, rfl⟩ := (ih hrs).mp hrest
      rw [htop word (Bus.lt_of_word?_eq_some hword)] at hwords
      refine ⟨word :: words, by rw [List.length_cons, hlen, List.length_cons], ⟨hword, hwords⟩, ?_,
        rfl⟩
      rw [Core.set_raised _ hne, Core.raised_raised, List.length_cons, Nat.add_comm 1]
      rfl
    · rintro ⟨_ | ⟨word, words⟩, hlen, hholds, rfl, rfl⟩
      · cases hlen
      · obtain ⟨hword, hwords⟩ := hholds
        rw [← htop word (Bus.lt_of_word?_eq_some hword)] at hwords
        refine ⟨(), (core.raised 1).set r word, bus', ?_, ?_⟩
        · exact completes_bind.mpr ⟨word, _, _, pop_completes_iff.mpr ⟨hword, rfl, rfl⟩,
            completes_set.mpr ⟨rfl, rfl⟩⟩
        · refine (ih hrs).mpr ⟨words, Nat.succ.inj hlen, hwords, ?_, rfl⟩
          rw [Core.set_raised _ hne, Core.raised_raised, List.length_cons, Nat.add_comm 1]
          rfl

end

end Microcode

/-! ## Calls -/

namespace Core

/-- The words that a call stores, in the order in which it pushes them. -/
def frame (core : Core) : List Word :=
  Register.general.map core.get ++ [core.get .ip, core.frameSize + 20]

/-- The core at the beginning of a subroutine. -/
def entered (core : Core) : Core :=
  ⟨((core.lowered 10).set .fp ((core.lowered 10).get .sp)).registers, 0⟩

/-- The core when a return has loaded the size of the frame. -/
def leaving (core : Core) (size : Word) : Core :=
  ⟨((core.set .sp (core.get .fp)).raised 1).registers, size⟩

/-- The core after a return that loads a size, an address, the saved registers and a number of
    arguments to drop. -/
def returned (core : Core) (size ip : Word) (saved : List Word) (count : Word) : Core :=
  (((⟨core.registers.set .sp (core.get .fp + 22 + 2 * count), size - 20 - 2 * count⟩ : Core).set .ip
    ip).setAll (Register.general.reverse.zip saved)).set .fp (core.get .fp + size)

@[simp] theorem length_frame (core : Core) : core.frame.length = 10 := rfl

theorem get_entered (core : Core) (r : Register) :
    core.entered.get r = if r = .sp ∨ r = .fp then core.get .sp - 20 else core.get r := by
  change ((core.lowered 10).set .fp ((core.lowered 10).get .sp)).get r = _
  cases r <;> simp

@[simp] theorem frameSize_entered (core : Core) : core.entered.frameSize = 0 := rfl

theorem get_leaving (core : Core) (size : Word) (r : Register) :
    (core.leaving size).get r = if .sp = r then core.get .fp + 2 else core.get r := by
  change ((core.set .sp (core.get .fp)).raised 1).get r = _
  rw [get_raised, get_set, if_pos rfl, get_set]
  by_cases h : Register.sp = r
  · simp [h]
  · simp [h]

theorem toNat_sp_leaving {core : Core} (h : (core.get .fp).toNat + 2 < 0x10000) (size : Word) :
    ((core.leaving size).get .sp).toNat = (core.get .fp).toNat + 2 := by
  rw [get_leaving, if_pos rfl, UInt16.toNat_add, show (2 : Word).toNat = 2 from rfl]
  omega

/-- The stack pointer and the counter while a return goes on to load, all at once. -/
theorem raised_leaving (core : Core) (size ip count : Word) :
    (((core.leaving size).raised 1).set .ip ip).raised (9 + count.toNat) =
      (⟨core.registers.set .sp (core.get .fp + 22 + 2 * count), size - 20 - 2 * count⟩ : Core).set
        .ip ip := by
  have hcount : (UInt16.ofNat (1 + (9 + count.toNat)) : Word) = 10 + count := by
    rw [show 1 + (9 + count.toNat) = 10 + count.toNat by omega, UInt16.ofNat_add,
      UInt16.ofNat_toNat]
    rfl
  rw [set_raised _ (by decide), raised_raised]
  congr 1
  apply ext_get
  · intro r
    have hset : (⟨core.registers.set .sp (core.get .fp + 22 + 2 * count),
        size - 20 - 2 * count⟩ : Core).get r =
          (core.set .sp (core.get .fp + 22 + 2 * count)).get r := rfl
    rw [get_raised, hcount, get_leaving, if_pos rfl, get_leaving, hset, get_set]
    by_cases h : Register.sp = r
    · rw [if_pos h, if_pos h]
      grind
    · simp [h]
  · rw [frameSize_raised, hcount]
    change size - 2 * (10 + count) = size - 20 - 2 * count
    grind

end Core

namespace Microcode

theorem probe_keeps {α : Type} {f : Core → α} (address : Word) (n : Nat) :
    (probe address n).Keeps f := by
  induction n generalizing address with
  | zero => exact keeps_pure ()
  | succ n ih => exact (keeps_access address .readWord).bind fun _ => ih (address - 2)

theorem probe_readsOnly (address : Word) (n : Nat) : (probe address n).ReadsOnly := by
  induction n generalizing address with
  | zero => exact readsOnly_pure ()
  | succ n ih => exact (readsOnly_access address rfl).bind fun _ => ih (address - 2)

/-- A call reads the words of its frame and then stores them. -/
theorem enter_apply (core : Core) :
    enter core = (do
      probe (core.get .sp) frameWords
      pushAll core.frame
      setCore core.entered : Microcode Unit) core := by
  have hip : (core.lowered 8).get .ip = core.get .ip := Core.get_lowered _ _ _
  have hsize : (core.lowered 8).pushed.frameSize + 2 = core.frameSize + 20 := by
    rw [Core.lowered_pushed, Core.frameSize_lowered, UInt16.add_assoc]
    rfl
  have hentered : (core.lowered 8).pushed.pushed = core.lowered 10 := by
    rw [Core.lowered_pushed, Core.lowered_pushed]
  change (probe (core.get .sp) frameWords >>= fun _ => (do
    Register.general.forM fun r => do push (← get r)
    push (← get .ip)
    push ((← frameSize) + 2)
    set .fp (← get .sp)
    setFrameSize 0 : Microcode Unit)) core = _
  refine Ensures.bind_congr ((probe_keeps (f := id) _ _ core).mono fun _ core₁ hcore => ?_)
  obtain rfl : core₁ = core := hcore
  have happend : pushAll core₁.frame =
      pushAll (Register.general.map core₁.get) >>= fun _ =>
        pushAll [core₁.get .ip, core₁.frameSize + 20] := List.forM_append
  rw [happend, bind_assoc]
  rw [bind_apply_congr (saves_apply (by decide) core₁)]
  refine Ensures.bind_congr ((pushAll_ensures core₁ _).mono fun _ core₂ hcore => ?_)
  obtain rfl : core₂ = core₁.lowered 8 := hcore
  change BusProgram.access _ (.writeWord _) (fun _ => .access _ (.writeWord _) fun _ => .done _) =
    .access _ (.writeWord _) fun _ => .access _ (.writeWord _) fun _ => .done _
  rw [hip, hsize, hentered]
  rfl

/-- Whatever the devices reply, a subroutine begins with a frame of its own. -/
theorem enter_ensures (core : Core) : enter.Ensures core fun _ core' => core' = core.entered := by
  have hstored : (do
      probe (core.get .sp) frameWords
      pushAll core.frame
      setCore core.entered : Microcode Unit).Ensures core fun _ core' => core' = core.entered := by
    refine ensures_bind.mpr (ensures_of_forall _ fun _ core₁ => ensures_bind.mpr ?_)
    exact ensures_of_forall _ fun _ core₂ => rfl
  unfold Ensures at hstored ⊢
  rwa [enter_apply]

theorem enter_completes_iff {δ : Type} [Device δ] {core core' : Core} {device device' : δ} :
    enter.Completes core device () core' device' ↔
      ∃ device₁, (probe (core.get .sp) frameWords).Completes core device () core device₁ ∧
        (pushAll core.frame).Completes core device₁ () (core.lowered 10) device' ∧
        core' = core.entered := by
  unfold Completes
  rw [enter_apply]
  change Completes _ _ _ _ _ _ ↔ _
  rw [completes_bind]
  constructor
  · rintro ⟨⟨⟩, core₁, device₁, hprobe, h⟩
    obtain rfl : core₁ = core := (probe_keeps (f := id) _ _).of_completes hprobe
    obtain ⟨⟨⟩, core₂, device₂, hframe, h⟩ := completes_bind.mp h
    obtain rfl := pushAll_core hframe
    obtain ⟨rfl, rfl⟩ := completes_setCore.mp h
    exact ⟨device₁, hprobe, hframe, rfl⟩
  · rintro ⟨device₁, hprobe, hframe, rfl⟩
    exact ⟨(), core, device₁, hprobe, completes_bind.mpr
      ⟨(), core.lowered 10, device', hframe, completes_setCore.mpr ⟨rfl, rfl⟩⟩⟩

/-- A call leaves its frame behind on a bus of memories, and every word above it as it was. -/
theorem holds_of_enter {core core' : Core} {bus bus' : Bus Ram}
    (h : enter.Completes core bus () core' bus') (hroom : 20 ≤ (core.get .sp).toNat) :
    bus'.Holds ((core.get .sp).toNat - 18) core.frame.reverse ∧
      ∀ a, (core.get .sp).toNat + 2 ≤ a → bus'.word? a = bus.word? a := by
  obtain ⟨bus₁, hprobe, hframe, -⟩ := enter_completes_iff.mp h
  obtain rfl := (probe_readsOnly _ _).device_eq hprobe
  obtain ⟨hholds, hkeep⟩ := pushAll_memory hframe (by simpa using hroom)
  rw [Core.length_frame,
    show (core.get .sp).toNat + 2 - 2 * 10 = (core.get .sp).toNat - 18 by omega] at hholds
  exact ⟨hholds, fun a ha => hkeep a (Or.inl ha)⟩

/-! ## Returns -/

section

variable {core core' : Core} {bus bus' : Bus Ram}

/-- A word that is loaded is the next one on the stack, and the stack pointer is at it then. -/
theorem pop_bind_completes_iff {α : Type} {next : Word → Microcode α} {a : α} :
    (pop >>= next).Completes core bus a core' bus' ↔
      ∃ word, bus.word? ((core.get .sp).toNat + 2) = some word ∧
        ((core.raised 1).get .sp).toNat = (core.get .sp).toNat + 2 ∧
        (next word).Completes (core.raised 1) bus a core' bus' := by
  rw [completes_bind]
  constructor
  · rintro ⟨word, _, _, hpop, hnext⟩
    obtain ⟨hword, rfl, rfl⟩ := pop_completes_iff.mp hpop
    exact ⟨word, hword, Core.toNat_sp_raised (Bus.lt_of_word?_eq_some hword), hnext⟩
  · rintro ⟨word, hword, -, hnext⟩
    exact ⟨word, _, _, pop_completes_iff.mpr ⟨hword, rfl, rfl⟩, hnext⟩

/-- The last part of a return: the arguments are dropped and the frame pointer is set. -/
theorem dropArguments_completes_iff {fp : Word} :
    (do drop (← pop).toNat; set .fp fp : Microcode Unit).Completes core bus () core' bus' ↔
      ∃ count dropped, dropped.length = count.toNat ∧
        bus.Holds ((core.get .sp).toNat + 2) (count :: dropped) ∧
        core' = (core.raised (1 + count.toNat)).set .fp fp ∧ bus' = bus := by
  rw [pop_bind_completes_iff]
  constructor
  · rintro ⟨count, hcount, hsp, h⟩
    obtain ⟨_, _, _, hdrop, hset⟩ := completes_bind.mp h
    obtain ⟨⟨dropped, hlen, hdropped⟩, rfl, rfl⟩ := drop_completes_iff.mp hdrop
    obtain ⟨rfl, rfl⟩ := completes_set.mp hset
    rw [hsp] at hdropped
    exact ⟨count, dropped, hlen, ⟨hcount, hdropped⟩, by rw [Core.raised_raised], rfl⟩
  · rintro ⟨count, dropped, hlen, ⟨hcount, hdropped⟩, rfl, rfl⟩
    have hsp := Core.toNat_sp_raised (n := 1) (Bus.lt_of_word?_eq_some hcount)
    refine ⟨count, hcount, hsp, completes_bind.mpr ⟨(), _, _, ?_, completes_set.mpr ⟨rfl, rfl⟩⟩⟩
    rw [drop_completes_iff, Core.raised_raised, hsp]
    exact ⟨⟨dropped, hlen, hdropped⟩, rfl, rfl⟩

/-- The part of a return from the saved registers on. -/
theorem restore_completes_iff {fp : Word} :
    (do loads Register.general.reverse; drop (← pop).toNat; set .fp fp : Microcode Unit).Completes
        core bus () core' bus' ↔
      ∃ saved count dropped, saved.length = 8 ∧ dropped.length = count.toNat ∧
        bus.Holds ((core.get .sp).toNat + 2) (saved ++ count :: dropped) ∧
        core' = ((core.raised (9 + count.toNat)).setAll
          (Register.general.reverse.zip saved)).set .fp fp ∧ bus' = bus := by
  have hne : ∀ saved : List Word, ∀ p ∈ Register.general.reverse.zip saved, p.1 ≠ .sp := by
    intro saved p hp
    exact ne_of_mem_of_not_mem (List.of_mem_zip hp).1 (by decide)
  have hsp : ∀ saved, saved.length = 8 → bus.Holds ((core.get .sp).toNat + 2) saved →
      (((core.raised 8).setAll (Register.general.reverse.zip saved)).get .sp).toNat =
        (core.get .sp).toNat + 16 := by
    intro saved hlen hsaved
    rw [Core.get_setAll_of_notMem _ (hne saved)]
    have := hsaved.lt (i := 7) (by omega)
    exact Core.toNat_sp_raised (by omega)
  have hcore : ∀ (saved : List Word) (n : Nat),
      ((core.raised 8).setAll (Register.general.reverse.zip saved)).raised (1 + n) =
        (core.raised (9 + n)).setAll (Register.general.reverse.zip saved) := by
    intro saved n
    rw [Core.setAll_raised _ (hne saved), Core.raised_raised, show 8 + (1 + n) = 9 + n by omega]
  have hsplit : ∀ (saved words : List Word), saved.length = 8 →
      (bus.Holds ((core.get .sp).toNat + 2) (saved ++ words) ↔
        bus.Holds ((core.get .sp).toNat + 2) saved ∧
          bus.Holds ((core.get .sp).toNat + 16 + 2) words) := by
    intro saved words hlen
    rw [Bus.holds_append, hlen]
  -- eight words for the registers, and the number of arguments with the arguments above them
  rw [completes_bind]
  constructor
  · rintro ⟨_, _, _, hloads, hrest⟩
    obtain ⟨saved, hlen, hsaved, rfl, rfl⟩ := (loads_completes_iff (by decide)).mp hloads
    obtain ⟨count, dropped, hlen', hdropped, rfl, rfl⟩ := dropArguments_completes_iff.mp hrest
    replace hlen : saved.length = 8 := hlen
    have htop := hsp saved hlen hsaved
    rw [show ((core.raised Register.general.reverse.length).setAll
      (Register.general.reverse.zip saved)).get .sp = ((core.raised 8).setAll
      (Register.general.reverse.zip saved)).get .sp from rfl, htop] at hdropped
    refine ⟨saved, count, dropped, hlen, hlen', (hsplit saved _ hlen).mpr ⟨hsaved, hdropped⟩, ?_,
      rfl⟩
    exact congrArg (Core.set · .fp fp) (hcore saved count.toNat)
  · rintro ⟨saved, count, dropped, hlen, hlen', hholds, rfl, rfl⟩
    obtain ⟨hsaved, hdropped⟩ := (hsplit saved _ hlen).mp hholds
    refine ⟨(), _, _, (loads_completes_iff (by decide)).mpr ⟨saved, hlen, hsaved, rfl, rfl⟩, ?_⟩
    rw [dropArguments_completes_iff]
    refine ⟨count, dropped, hlen', ?_, congrArg (Core.set · .fp fp) (hcore saved count.toNat).symm,
      rfl⟩
    rw [← hsp saved hlen hsaved] at hdropped
    exact hdropped

/-- A return needs the words that it loads to be readable and nothing else. -/
theorem leave_completes_iff :
    leave.Completes core bus () core' bus' ↔
      ∃ size ip saved count dropped, saved.length = 8 ∧ dropped.length = count.toNat ∧
        bus.Holds ((core.get .fp).toNat + 2) (size :: ip :: (saved ++ count :: dropped)) ∧
        core' = core.returned size ip saved count ∧ bus' = bus := by
  have hleaving : ∀ size, (⟨((core.set .sp (core.get .fp)).raised 1).registers, size⟩ : Core) =
      core.leaving size := fun _ => rfl
  have hfirst : (core.get .fp).toNat + 2 < 0x10000 → ∀ size,
      ((core.leaving size).get .sp).toNat = (core.get .fp).toNat + 2 :=
    fun hlt size => Core.toNat_sp_leaving hlt size
  have hsecond : (core.get .fp).toNat + 4 < 0x10000 → ∀ size ip,
      ((((core.leaving size).raised 1).set .ip ip).get .sp).toNat = (core.get .fp).toNat + 4 := by
    intro hlt size ip
    have hsp := hfirst (by omega) size
    rw [Core.get_set, if_neg (by decide), Core.toNat_sp_raised (by omega), hsp]
  rw [leave, completes_get_bind, completes_set_bind, pop_bind_completes_iff, Core.get_set,
    if_pos rfl]
  constructor
  · rintro ⟨size, hsize, -, h⟩
    rw [completes_setFrameSize_bind, hleaving, pop_bind_completes_iff,
      hfirst (Bus.lt_of_word?_eq_some hsize)] at h
    obtain ⟨ip, hip, -, h⟩ := h
    rw [completes_set_bind] at h
    obtain ⟨saved, count, dropped, hlen, hlen', hholds, hcore, rfl⟩ := restore_completes_iff.mp h
    rw [Core.raised_leaving] at hcore
    rw [hsecond (Bus.lt_of_word?_eq_some hip)] at hholds
    exact ⟨size, ip, saved, count, dropped, hlen, hlen', ⟨hsize, hip, hholds⟩, hcore, rfl⟩
  · rintro ⟨size, ip, saved, count, dropped, hlen, hlen', ⟨hsize, hip, hholds⟩, hcore, rfl⟩
    have hlt := Bus.lt_of_word?_eq_some hip
    have hsp := hfirst (by omega) size
    refine ⟨size, hsize, hsp, ?_⟩
    rw [completes_setFrameSize_bind, hleaving, pop_bind_completes_iff, hsp]
    refine ⟨ip, hip, (Core.toNat_sp_raised (by omega)).trans (by omega), ?_⟩
    rw [completes_set_bind]
    refine restore_completes_iff.mpr ⟨saved, count, dropped, hlen, hlen', ?_, ?_, rfl⟩
    · rw [hsecond (by omega)]
      exact hholds
    · rw [Core.raised_leaving]
      exact hcore

end

end Microcode

end WordMachine
