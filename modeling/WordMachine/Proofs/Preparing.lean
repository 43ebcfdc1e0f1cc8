import WordMachine.Proofs.Shadowing

/-!
# What the options ask for

Before a machine is run, the size of the image and the texts of the options are checked one after the
other, and the first of them that will not do is reported. If all of them do, the machine has the image
at the start of its memory, zeros behind it, and the address to start at in its instruction pointer.

* `Refused`, `Accepted`: what is wrong with an image and options, and what they ask for if nothing is.
* `accepted_or_refused`: one of the two is so.
* `prepare_of_accepted`, `prepare_of_refused`: the session that is set up, or the failure.
-/

namespace WordMachine.CommandLine

variable {options : Options} {image : Array Byte} {start : Word} {limit : Option Nat} {text : String}
  {n : Nat} {error : NumberError}

/-! ## Numbers -/

theorem number_of_parse (h : Number.parse text = .ok n) : number text = .ok n := by
  rw [number, h]

theorem number_of_parse_eq_error (h : Number.parse text = .error error) :
    number text = .error (.invalidNumber text error) := by
  rw [number, h]

theorem startAddress_of_le (h : Number.parse text = .ok n) (hn : n ≤ 0xffff) :
    startAddress text = .ok (.ofNat n) := by
  unfold startAddress
  rw [number_of_parse h]
  exact if_pos (Nat.lt_succ_of_le hn)

theorem startAddress_of_lt (h : Number.parse text = .ok n) (hn : 0xffff < n) :
    startAddress text = .error (.startOutOfRange n) := by
  unfold startAddress
  rw [number_of_parse h]
  exact if_neg (Nat.not_lt_of_le hn)

theorem startAddress_of_parse_eq_error (h : Number.parse text = .error error) :
    startAddress text = .error (.invalidNumber text error) := by
  unfold startAddress
  rw [number_of_parse_eq_error h]
  rfl

/-! ## Checks -/

/-- The address at which the options start a run, which is zero if they do not say. -/
def StartsAt (options : Options) (start : Word) : Prop :=
  match options.start with
  | none => start = 0
  | some text => ∃ n, Number.parse text = .ok n ∧ n ≤ 0xffff ∧ start = .ofNat n

/-- The number of steps that the options allow, if they set a limit. -/
def Limited (options : Options) (limit : Option Nat) : Prop :=
  match options.maxSteps with
  | none => limit = none
  | some text => ∃ n, Number.parse text = .ok n ∧ limit = some n

/-- An image and options that a machine is run with. -/
structure Accepted (options : Options) (image : Array Byte) (start : Word) (limit : Option Nat) :
    Prop where
  size : image.size ≤ 0x10000
  start : StartsAt options start
  limit : Limited options limit

/-- The first thing that is wrong with an image and options. -/
inductive Refused (options : Options) (image : Array Byte) : Failure → Prop
  /-- the image is longer than the memory -/
  | image (hsize : 0x10000 < image.size) :
      Refused options image (.unusableImage (.imageTooLarge image.size 0x10000))
  /-- the address to start at is not a number -/
  | startText {text : String} {error : NumberError} (hsize : image.size ≤ 0x10000)
      (htext : options.start = some text) (hparse : Number.parse text = .error error) :
      Refused options image (.invalidNumber text error)
  /-- the address to start at is past the end -/
  | startRange {text : String} {n : Nat} (hsize : image.size ≤ 0x10000)
      (htext : options.start = some text) (hparse : Number.parse text = .ok n)
      (hrange : 0xffff < n) : Refused options image (.startOutOfRange n)
  /-- the limit of the steps is not a number -/
  | limitText {start : Word} {text : String} {error : NumberError} (hsize : image.size ≤ 0x10000)
      (hstart : StartsAt options start) (htext : options.maxSteps = some text)
      (hparse : Number.parse text = .error error) :
      Refused options image (.invalidNumber text error)

theorem startsAt_or_refused (hsize : image.size ≤ 0x10000) :
    (∃ start, StartsAt options start) ∨ ∃ failure, Refused options image failure := by
  cases htext : options.start with
  | none => exact Or.inl ⟨0, by rw [StartsAt, htext]⟩
  | some text =>
    cases hparse : Number.parse text with
    | error error => exact Or.inr ⟨_, .startText hsize htext hparse⟩
    | ok n =>
      by_cases hn : n ≤ 0xffff
      · refine Or.inl ⟨.ofNat n, ?_⟩
        rw [StartsAt, htext]
        exact ⟨n, hparse, hn, rfl⟩
      · exact Or.inr ⟨_, .startRange hsize htext hparse (Nat.lt_of_not_le hn)⟩

theorem limited_or_refused (hsize : image.size ≤ 0x10000) (hstart : StartsAt options start) :
    (∃ limit, Limited options limit) ∨ ∃ failure, Refused options image failure := by
  cases htext : options.maxSteps with
  | none => exact Or.inl ⟨none, by rw [Limited, htext]⟩
  | some text =>
    cases hparse : Number.parse text with
    | error error => exact Or.inr ⟨_, .limitText hsize hstart htext hparse⟩
    | ok n =>
      refine Or.inl ⟨some n, ?_⟩
      rw [Limited, htext]
      exact ⟨n, hparse, rfl⟩

/-- An image and options either will do or have something wrong with them. -/
theorem accepted_or_refused (options : Options) (image : Array Byte) :
    (∃ start limit, Accepted options image start limit) ∨
      ∃ failure, Refused options image failure := by
  by_cases hsize : image.size ≤ 0x10000
  · rcases startsAt_or_refused hsize with ⟨start, hstart⟩ | hrefused
    · rcases limited_or_refused hsize hstart with ⟨limit, hlimit⟩ | hrefused
      · exact Or.inl ⟨start, limit, hsize, hstart, hlimit⟩
      · exact Or.inr hrefused
    · exact Or.inr hrefused
  · exact Or.inr ⟨_, .image (Nat.lt_of_not_le hsize)⟩

/-! ## Setting up -/

/-- The machine that is run. -/
def booted (options : Options) (image : Array Byte) (start : Word) : Machine Peripheral :=
  let machine := build ⟨image ++ Array.replicate (0x10000 - image.size) 0⟩ options.screen
  { machine with core := machine.core.set .ip start }

theorem get_ip_build (memory : Ram) (screen : Bool) : (build memory screen).core.get .ip = 0 := by
  cases screen <;> exact RegisterFile.get_initial .ip

theorem mapM_startAddress (h : StartsAt options start) :
    ∃ start', options.start.mapM startAddress = .ok start' ∧ start'.getD 0 = start := by
  unfold StartsAt at h
  cases htext : options.start with
  | none =>
    rw [htext] at h
    exact ⟨none, rfl, h.symm⟩
  | some text =>
    rw [htext] at h
    obtain ⟨n, hparse, hn, rfl⟩ := h
    refine ⟨some (.ofNat n), ?_, rfl⟩
    rw [Option.mapM_some, startAddress_of_le hparse hn]
    rfl

theorem mapM_number (h : Limited options limit) : options.maxSteps.mapM number = .ok limit := by
  unfold Limited at h
  cases htext : options.maxSteps with
  | none =>
    rw [htext] at h
    rw [h]
    rfl
  | some text =>
    rw [htext] at h
    obtain ⟨n, hparse, rfl⟩ := h
    rw [Option.mapM_some, number_of_parse hparse]
    rfl

namespace Session

theorem prepare_of_accepted (h : Accepted options image start limit) :
    prepare options (.ok image) = .ok ⟨booted options image start, limit⟩ := by
  obtain ⟨start', hstart, rfl⟩ := mapM_startAddress h.start
  refine prepare_eq_ok_iff.mpr ⟨_, start', limit, Ram.ofImage_eq_ok_iff.mpr ⟨h.size, rfl⟩, hstart,
    mapM_number h.limit, ?_⟩
  rw [started, get_ip_build]
  rfl

theorem prepare_of_refused {failure : Failure} (h : Refused options image failure) :
    prepare options (.ok image) = .error failure := by
  have hfits : image.size ≤ 0x10000 → ∃ memory, Ram.ofImage image Bus.addressSpace = .ok memory :=
    fun hsize => ⟨_, Ram.ofImage_eq_ok_iff.mpr ⟨hsize, rfl⟩⟩
  rw [prepare_eq]
  cases h with
  | image hsize =>
    have hmemory : Ram.ofImage image Bus.addressSpace = .error (.imageTooLarge image.size 0x10000) :=
      if_neg (Nat.not_le_of_lt hsize)
    rw [hmemory]
    rfl
  | @startText text error hsize htext hparse =>
    obtain ⟨memory, hmemory⟩ := hfits hsize
    rw [hmemory, htext, Option.mapM_some, startAddress_of_parse_eq_error hparse]
    rfl
  | @startRange text n hsize htext hparse hrange =>
    obtain ⟨memory, hmemory⟩ := hfits hsize
    rw [hmemory, htext, Option.mapM_some, startAddress_of_lt hparse hrange]
    rfl
  | @limitText start text error hsize hstart htext hparse =>
    obtain ⟨memory, hmemory⟩ := hfits hsize
    obtain ⟨start', hstart', -⟩ := mapM_startAddress hstart
    rw [hmemory, hstart', htext, Option.mapM_some, number_of_parse_eq_error hparse]
    rfl

end Session

/-- An image and options will do if nothing is wrong with them. -/
theorem exists_accepted_iff :
    (∃ start limit, Accepted options image start limit) ↔
      ¬∃ failure, Refused options image failure := by
  constructor
  · rintro ⟨start, limit, haccepted⟩ ⟨failure, hrefused⟩
    have hok := Session.prepare_of_accepted haccepted
    rw [Session.prepare_of_refused hrefused] at hok
    cases hok
  · exact (accepted_or_refused options image).resolve_right

end WordMachine.CommandLine
