import WordMachine.Proofs.EscapeStream
import WordMachine.Proofs.Messages
import WordMachine.Proofs.Preparing

/-!
# What a run reports

A run from the command line ends in one of four ways: the image or the options will not do, the machine
halts, an instruction fails, or the number of steps that is allowed is used up. The exit code is zero
only if the machine halts. What is printed is what was drawn and then, if it is asked for, the registers
and the bytes at the instruction pointer as they are at the end; of an instruction that fails nothing
shows in them. The texts are written out, and their digits are those of the standard library.

* `Session.goesOn_or_finishes`, `Session.exists_advance_iff`: when a session ends, and with which
  verdict.
* `decode_drawing`: what is drawn says which words were written to the screen.
* `shown_iff`, `printed_iff`: what is printed when it does.
* `prints_iff_reports`: the four ways.
* `Prints.unique`, `prints_or_goesOn`: there is one report, unless the machine goes on forever.
-/

namespace WordMachine

/-! ## Bytes from an address on -/

namespace Bus

variable {δ : Type} [Device δ] {bus : Bus δ}

/-- The bytes can be read from an address on, around the end of the address space, which changes
    nothing. -/
def Shows (bus : Bus δ) (a : Word) (bytes : List Byte) : Prop :=
  ∀ i (hi : i < bytes.length), bus.answer (a + .ofNat i) .readByte = (.ok bytes[i], bus)

theorem shows_cons_iff {a : Word} {byte : Byte} {bytes : List Byte} :
    bus.Shows a (byte :: bytes) ↔
      bus.answer a .readByte = (.ok byte, bus) ∧ bus.Shows (a + 1) bytes := by
  have hzero : a + .ofNat 0 = a := UInt16.add_zero a
  have hnext : ∀ i, a + .ofNat (i + 1) = a + 1 + .ofNat i := by
    intro i
    rw [UInt16.ofNat_add, UInt16.add_comm (.ofNat i), UInt16.add_assoc]
    rfl
  constructor
  · intro h
    have hfirst := h 0 (Nat.zero_lt_succ _)
    rw [hzero] at hfirst
    refine ⟨hfirst, fun i hi => ?_⟩
    rw [← hnext]
    exact h (i + 1) (Nat.succ_lt_succ hi)
  · rintro ⟨hfirst, hrest⟩ i hi
    cases i with
    | zero =>
      rw [hzero]
      exact hfirst
    | succ i =>
      rw [hnext]
      exact hrest i (Nat.lt_of_succ_lt_succ hi)

theorem readEach_of_shows {a : Word} {bytes : List Byte} (h : bus.Shows a bytes)
    (done : Array Byte) : bus.readEach a done bytes.length = (.ok (done ++ bytes), bus) := by
  induction bytes generalizing a done with
  | nil =>
    rw [List.length_nil, readEach]
    simp
  | cons byte bytes ih =>
    obtain ⟨hfirst, hrest⟩ := shows_cons_iff.mp h
    rw [List.length_cons, readEach, hfirst]
    simp only
    rw [ih hrest]
    simp

theorem exists_shows (h : ∀ a, ∃ byte, bus.answer a .readByte = (.ok byte, bus)) (a : Word)
    (n : Nat) : ∃ bytes : List Byte, bytes.length = n ∧ bus.Shows a bytes := by
  choose byte hbyte using h
  refine ⟨(List.range n).map fun i => byte (a + .ofNat i), by simp, fun i hi => ?_⟩
  rw [hbyte, List.getElem_map, List.getElem_range]

end Bus

/-! ## Words on the screen -/

/-- The word that an access writes to the page of the screen, with the address of its cell. -/
def Event.screenWrite? (event : Event) : Option (Word × Word) :=
  match event.request with
  | .writeWord value =>
    if Bus.OnScreen event.address then some (event.address - 0x3000, value) else none
  | _ => none

/-- Accesses draw the words among them that are for the screen. -/
theorem Event.flatMap_drawing (events : List Event) :
    events.flatMap Event.drawing =
      Screen.encode (((events.filterMap Event.screenWrite?).map Screen.Drawing.ofWrite).flatMap
        Screen.Drawing.text) := by
  induction events with
  | nil => rfl
  | cons event events ih =>
    obtain ⟨a, request, ending⟩ := event
    rw [List.flatMap_cons, ih, drawing, List.filterMap_cons, screenWrite?]
    cases request with
    | writeWord value =>
      by_cases ha : Bus.OnScreen a
      · simp only [if_pos ha, List.map_cons, List.flatMap_cons]
        rw [Screen.flatten_map_encode, Screen.flatten_rendering]
        exact List.flatMap_append.symm
      · simp only [if_neg ha]
        rfl
    | _ => rfl

namespace Machine

variable {δ : Type} [Device δ] {machine : Machine δ} {k k' : Nat}

/-- The words that a machine writes to the page of the screen in its next `n` steps. -/
def screenWrites (machine : Machine δ) (n : Nat) : List (Word × Word) :=
  ((List.range n).flatMap fun k => (machine.after k).trace).filterMap Event.screenWrite?

theorem decode_drawn (machine : Machine δ) (n : Nat) :
    Screen.decode (machine.drawn n) =
      some ((machine.screenWrites n).map Screen.Drawing.ofWrite) := by
  rw [drawn, ← List.flatMap_assoc, Event.flatMap_drawing, Screen.decode_text]
  rfl

theorem view_eq (machine : Machine δ) (a : Word) (count : Nat) :
    (machine.view a count).1 =
      (MemoryView.text a ·.toList) <$> (machine.bus.read a count).1 := rfl

/-! ## The end of a session -/

/-- A machine that has gone on for `k` steps halts in the next one. -/
structure Halts (machine : Machine δ) (k : Nat) : Prop where
  goesOn : machine.GoesOn k
  halts : (machine.after k).step.1 = .ok true

theorem Halts.toStops (h : machine.Halts k) : machine.Stops k := by
  refine ⟨h.goesOn, ?_⟩
  rw [h.halts]
  exact nofun

/-- A machine that stops at a step does not go on behind it. -/
theorem Stops.not_goesOn (h : machine.Stops k) {n : Nat} (hk : k < n) : ¬machine.GoesOn n :=
  fun hgo => h.stops (hgo k hk)

theorem Stops.unique (h : machine.Stops k) (h' : machine.Stops k') : k = k' := by
  by_contra hne
  rcases Nat.lt_or_gt_of_ne hne with hlt | hlt
  · exact h.not_goesOn hlt h'.goesOn
  · exact h'.not_goesOn hlt h.goesOn

end Machine

namespace CommandLine

namespace Session

variable {session : Session} {verdict : Except Fault Bool} {n steps : Nat}

/-- A session has made `n` steps and may make more. -/
structure GoesOn (session : Session) (n : Nat) : Prop where
  machine : session.machine.GoesOn n
  limit : ∀ limit, session.remaining = some limit → n < limit

/-- A session ends after a number of steps: the machine stops at the last of them, or there are no
    more. -/
inductive Finishes (session : Session) : (steps : Nat) → (verdict : Except Fault Bool) → Prop
  | stops {k : Nat} (hstops : session.machine.Stops k)
      (hlimit : ∀ limit, session.remaining = some limit → k < limit) :
      Finishes session (k + 1) (session.machine.after k).step.1
  | exhausted {limit : Nat} (hlimit : session.remaining = some limit)
      (hgo : session.machine.GoesOn limit) : Finishes session limit (.ok false)

theorem Finishes.unique {steps' : Nat} {verdict' : Except Fault Bool}
    (h : session.Finishes steps verdict) (h' : session.Finishes steps' verdict') :
    steps = steps' ∧ verdict = verdict' := by
  cases h with
  | stops hstops hlimit =>
    cases h' with
    | stops hstops' =>
      obtain rfl := hstops.unique hstops'
      exact ⟨rfl, rfl⟩
    | exhausted hlimit' hgo => exact absurd hgo (hstops.not_goesOn (hlimit _ hlimit'))
  | exhausted hlimit hgo =>
    cases h' with
    | stops hstops hlimit' => exact absurd hgo (hstops.not_goesOn (hlimit' _ hlimit))
    | exhausted hlimit' =>
      obtain rfl := Option.some.inj (hlimit.symm.trans hlimit')
      exact ⟨rfl, rfl⟩

/-- A session goes on for `n` steps, or ends before or with the last of them. -/
theorem goesOn_or_finishes (session : Session) (n : Nat) :
    session.GoesOn n ∨ ∃ steps ≤ n, ∃ verdict, session.Finishes steps verdict := by
  by_cases hlimit : ∃ limit ≤ n, session.remaining = some limit
  · obtain ⟨limit, hle, hlimit⟩ := hlimit
    right
    rcases Machine.goesOn_or_stops session.machine limit with hgo | ⟨k, hk, hstops⟩
    · exact ⟨limit, hle, _, .exhausted hlimit hgo⟩
    · refine ⟨k + 1, Nat.le_trans hk hle, _, .stops hstops fun limit' hlimit' => ?_⟩
      obtain rfl := Option.some.inj (hlimit.symm.trans hlimit')
      exact hk
  · have hlt : ∀ limit, session.remaining = some limit → n < limit := fun limit h =>
      Nat.lt_of_not_le fun hle => hlimit ⟨limit, hle, h⟩
    rcases Machine.goesOn_or_stops session.machine n with hgo | ⟨k, hk, hstops⟩
    · exact Or.inl ⟨hgo, hlt⟩
    · exact Or.inr ⟨k + 1, hk, _, .stops hstops fun limit h => Nat.lt_trans hk (hlt limit h)⟩

/-- A session that goes on may go on. -/
theorem advance_of_goesOn (hm : session.machine.halted = false) (h : session.GoesOn n) :
    session.advance n = (none, ⟨session.machine.after n, session.remaining.map (· - n)⟩) := by
  obtain ⟨machine, remaining⟩ := session
  cases remaining with
  | none =>
    rw [advance, Machine.runFor_of_goesOn h.machine, h.machine.halted hm]
    rfl
  | some limit =>
    have hlt : n < limit := h.limit limit rfl
    rw [advance, Nat.min_eq_left (Nat.le_of_lt hlt), Machine.runFor_of_goesOn h.machine,
      h.machine.halted hm]
    simp only
    rw [if_neg (Nat.not_le_of_lt hlt)]
    rfl

/-- A session that ends has the verdict of its last step. -/
theorem advance_of_finishes (hm : session.machine.halted = false)
    (h : session.Finishes steps verdict) (hn : steps ≤ n) :
    session.advance n =
      (some verdict, ⟨session.machine.after steps, session.remaining.map (· - n)⟩) := by
  obtain ⟨machine, remaining⟩ := session
  cases h with
  | @stops k hstops hlimit =>
    have hne := hstops.stops
    cases remaining with
    | none =>
      rw [advance, hstops.runFor hn, Machine.after_succ]
      generalize (machine.after k).step = outcome at hne
      obtain ⟨_ | _ | _, final⟩ := outcome
      · rfl
      · exact absurd rfl hne
      · rfl
    | some limit =>
      have hk : k < min n limit := Nat.lt_min.mpr ⟨hn, hlimit limit rfl⟩
      rw [advance, hstops.runFor hk, Machine.after_succ]
      generalize (machine.after k).step = outcome at hne
      obtain ⟨_ | _ | _, final⟩ := outcome
      · rfl
      · exact absurd rfl hne
      · rfl
  | exhausted hlimit hgo =>
    obtain rfl : remaining = some steps := hlimit
    rw [advance, Nat.min_eq_right hn, Machine.runFor_of_goesOn hgo, hgo.halted hm]
    simp only
    rw [if_pos hn]
    rfl

/-- A session that is run for long enough ends with the verdict of its last step. -/
theorem exists_advance_iff (hm : session.machine.halted = false) {final : Machine Peripheral} :
    (∃ n remaining, session.advance n = (some verdict, ⟨final, remaining⟩)) ↔
      ∃ steps, session.Finishes steps verdict ∧ final = session.machine.after steps := by
  constructor
  · rintro ⟨n, remaining, hadvance⟩
    rcases session.goesOn_or_finishes n with hgo | ⟨steps, hle, verdict', hfinishes⟩
    · rw [advance_of_goesOn hm hgo] at hadvance
      cases hadvance
    · rw [advance_of_finishes hm hfinishes hle] at hadvance
      cases hadvance
      exact ⟨steps, hfinishes, rfl⟩
  · rintro ⟨steps, hfinishes, rfl⟩
    exact ⟨steps, _, advance_of_finishes hm hfinishes (Nat.le_refl steps)⟩

end Session

/-! ## What is printed -/

/-- The registers in the order in which they are shown, with what is in front of their values. -/
def labels : List (String × Register) :=
  [("ip: 0x", .ip), ("acc: 0x", .acc), ("r1: 0x", .r1), ("r2: 0x", .r2), ("r3: 0x", .r3),
    ("r4: 0x", .r4), ("r5: 0x", .r5), ("r6: 0x", .r6), ("r7: 0x", .r7), ("r8: 0x", .r8),
    ("sp: 0x", .sp), ("fp: 0x", .fp)]

/-- The text of a machine with the given bytes at its instruction pointer: a line for each register, and
    one for the bytes. -/
def shownText (machine : Machine Peripheral) (bytes : List Byte) : String :=
  String.join (labels.map fun (label, r) =>
      label ++ Hex.padded 4 (machine.core.get r).toNat ++ "\n") ++
    "0x" ++ Hex.padded 4 (machine.core.get .ip).toNat ++ ": " ++
    " ".intercalate (bytes.map fun b => "0x" ++ Hex.padded 2 b.toNat) ++ "\n"

/-- The text that shows a machine, with the eight bytes from the instruction pointer on. -/
def Shown (machine : Machine Peripheral) (text : String) : Prop :=
  ∃ bytes : List Byte, bytes.length = 8 ∧ machine.bus.Shows (machine.core.get .ip) bytes ∧
    text = shownText machine bytes

/-- What a run draws in its first steps, if it has a screen. -/
def drawing (options : Options) (image : Array Byte) (start : Word) (n : Nat) : List Byte :=
  if options.screen then (booted options image start).drawn n else []

/-- From what a run draws, the words can be told that it writes to the page of the screen. -/
theorem decode_drawing (options : Options) (image : Array Byte) (start : Word) (n : Nat) :
    Screen.decode (drawing options image start n) =
      some (if options.screen then
        ((booted options image start).screenWrites n).map Screen.Drawing.ofWrite
      else []) := by
  rw [drawing]
  split
  · exact Machine.decode_drawn _ n
  · exact Screen.decode_text []

/-- What is printed when a run ends: what was drawn, and behind it the text that shows the machine if
    it is asked for. -/
inductive Printed (machine : Machine Peripheral) (drawing : List Byte) :
    (withDump : Bool) → Array Byte → Prop
  | plain : Printed machine drawing false drawing.toArray
  | dumped {text : String} (hshown : Shown machine text) :
      Printed machine drawing true (drawing.toArray ++ text.toUTF8.data)

variable {options : Options} {image : Array Byte} {start : Word}

/-- The lines of the registers. -/
theorem dump_eq (file : RegisterFile) :
    file.dump = String.join (labels.map fun (label, r) =>
      label ++ Hex.padded 4 (file.get r).toNat ++ "\n") := by
  rw [RegisterFile.dump]
  simp only [Hex.word_eq]
  rfl

/-- The line of the bytes. -/
theorem memoryView_eq (address : Word) (bytes : List Byte) :
    MemoryView.text address bytes = "0x" ++ Hex.padded 4 address.toNat ++ ": " ++
      " ".intercalate (bytes.map fun b => "0x" ++ Hex.padded 2 b.toNat) := by
  rw [MemoryView.text, Hex.word_eq]
  simp only [Hex.byte_eq]

/-- The dump is the text of the machine with the bytes that can be read. -/
theorem dump_of_shows {machine : Machine Peripheral} {bytes : List Byte} (hlength : bytes.length = 8)
    (hshows : machine.bus.Shows (machine.core.get .ip) bytes) :
    Session.dump ⟨machine, none⟩ = shownText machine bytes := by
  have hread := Bus.readEach_of_shows hshows #[]
  have hbytes : ((#[] : Array Byte) ++ bytes).toList = bytes := by simp
  rw [hlength] at hread
  rw [Session.dump]
  simp only
  rw [Machine.view_eq, Bus.read, hread]
  change RegisterFile.dump _ ++ MemoryView.text _ ((#[] : Array Byte) ++ bytes).toList ++ "\n" = _
  rw [hbytes, dump_eq, memoryView_eq, shownText]
  simp only [String.append_assoc]
  rfl

/-- A text shows a machine if it is the dump. -/
theorem shown_iff {machine : Machine Peripheral} {text : String}
    (hread : ∀ a, ∃ byte, machine.bus.answer a .readByte = (.ok byte, machine.bus)) :
    Shown machine text ↔ text = Session.dump ⟨machine, none⟩ := by
  constructor
  · rintro ⟨bytes, hlength, hshows, rfl⟩
    exact (dump_of_shows hlength hshows).symm
  · rintro rfl
    obtain ⟨bytes, hlength, hshows⟩ := Bus.exists_shows hread (machine.core.get .ip) 8
    exact ⟨bytes, hlength, hshows, dump_of_shows hlength hshows⟩

/-- The machine has memory everywhere, whatever it has done. -/
theorem backed_booted (options : Options) (start : Word) (h : image.size ≤ 0x10000) (n : Nat) :
    Bus.Backed Buffer.Open ((booted options image start).after n).bus := by
  have hsize : (image ++ Array.replicate (0x10000 - image.size) (0 : Byte)).size = 0x10000 := by
    rw [Array.size_append, Array.size_replicate]
    omega
  have hbacked : Bus.Backed Buffer.Open (booted options image start).bus :=
    Machine.backed_build hsize options.screen
  exact Machine.backed_after Buffer.steady hbacked n

/-- What has been written to the output stream is what was drawn. -/
theorem output_booted (n : Nat) :
    Session.output ⟨(booted options image start).after n, none⟩ =
      (drawing options image start n).toArray := by
  rw [Session.output, drawing]
  cases hscreen : options.screen with
  | true =>
    have hbus : (booted options image start).bus =
        Bus.covered ⟨image ++ Array.replicate (0x10000 - image.size) 0⟩ ⟨Buffer.unlimited⟩ := by
      rw [booted, hscreen]
      rfl
    obtain ⟨ram, hafter⟩ := Machine.exists_bus_after hbus ⟨rfl, rfl⟩ n
    rw [hafter, if_pos rfl]
    simp [Bus.covered, Bus.page, Bus.whole, Session.written, Buffer.extended, Buffer.unlimited]
  | false =>
    have hbus : (booted options image start).bus =
        ⟨[Bus.whole ⟨image ++ Array.replicate (0x10000 - image.size) 0⟩], 1⟩ := by
      rw [booted, hscreen]
      rfl
    obtain ⟨ram, hafter⟩ := Machine.exists_bus_after_of_alone hbus n
    rw [hafter, if_neg (by decide)]
    rfl

/-- What is printed when a run ends is what the session prints. -/
theorem printed_iff (h : image.size ≤ 0x10000) {n : Nat} {output : Array Byte} :
    Printed ((booted options image start).after n) (drawing options image start n) options.dump
        output ↔
      output = Session.output ⟨(booted options image start).after n, none⟩ ++
        if options.dump then
          (Session.dump ⟨(booted options image start).after n, none⟩).toUTF8.data
        else #[] := by
  have hread := (backed_booted options start h n).exists_readByte Buffer.steady
  rw [output_booted]
  generalize options.dump = withDump
  constructor
  · intro hprinted
    cases hprinted with
    | plain => rw [if_neg (by decide), Array.append_empty]
    | dumped hshown => rw [if_pos rfl, (shown_iff hread).mp hshown]
  · rintro rfl
    cases withDump with
    | true =>
      rw [if_pos rfl]
      exact .dumped ((shown_iff hread).mpr rfl)
    | false =>
      rw [if_neg (by decide), Array.append_empty]
      exact .plain

/-! ## Reports -/

/-- The run that the options ask for prints a report when it is given the image, if it is run for long
    enough. -/
def Prints (options : Options) (image : Array Byte) (report : Report) : Prop :=
  ∃ fuel, run options (.ok image) fuel = some report

/-- The reports there can be. -/
inductive Reports (options : Options) (image : Array Byte) : Report → Prop
  /-- the image or the options will not do -/
  | refused {failure : Failure} {errors : String} (h : Refused options image failure)
      (herrors : failure.Says errors) : Reports options image ⟨1, #[], errors⟩
  /-- the machine halts, within the limit if there is one -/
  | halted {start : Word} {limit : Option Nat} {k : Nat} {output : Array Byte}
      (h : Accepted options image start limit) (hhalts : (booted options image start).Halts k)
      (hlimit : ∀ n, limit = some n → k < n)
      (houtput : Printed ((booted options image start).after (k + 1))
        (drawing options image start (k + 1)) options.dump output) : Reports options image ⟨0, output, ""⟩
  /-- an instruction fails, and the machine is shown as it is before that instruction -/
  | failed {start : Word} {limit : Option Nat} {k : Nat} {fault : Fault} {reason : String}
      {output : Array Byte} (h : Accepted options image start limit)
      (hgo : (booted options image start).GoesOn k)
      (hfault : ((booted options image start).after k).step.1 = .error fault)
      (hreason : fault.Says reason) (hlimit : ∀ n, limit = some n → k < n)
      (houtput : Printed ((booted options image start).after k)
        (drawing options image start k) options.dump output) :
      Reports options image
        ⟨1, output, "Error: machine fault\n\nCaused by:\n    " ++ reason ++ "\n"⟩
  /-- the limit is reached -/
  | exhausted {start : Word} {n : Nat} {output : Array Byte}
      (h : Accepted options image start (some n)) (hgo : (booted options image start).GoesOn n)
      (houtput : Printed ((booted options image start).after n)
        (drawing options image start n) options.dump output) :
      Reports options image ⟨1, output, "Error: step limit reached without halting\n"⟩

variable {limit : Option Nat} {report : Report}

theorem prints_iff_of_refused {failure : Failure} (h : Refused options image failure) :
    Prints options image report ↔ report = ⟨1, #[], failure.text⟩ := by
  have hrun : ∀ fuel, run options (.ok image) fuel = some ⟨1, #[], failure.text⟩ := by
    intro fuel
    rw [run, Session.prepare_of_refused h]
    rfl
  constructor
  · rintro ⟨fuel, hreport⟩
    rw [hrun] at hreport
    exact (Option.some.inj hreport).symm
  · rintro rfl
    exact ⟨0, hrun 0⟩

theorem halted_booted (options : Options) (image : Array Byte) (start : Word) :
    (booted options image start).halted = false := by
  rw [booted]
  cases options.screen <;> rfl

theorem prints_iff_of_accepted (h : Accepted options image start limit) :
    Prints options image report ↔
      ∃ steps verdict, Session.Finishes ⟨booted options image start, limit⟩ steps verdict ∧
        report = Session.conclude ⟨(booted options image start).after steps, none⟩ options.dump
          verdict := by
  have hends := @Session.exists_advance_iff ⟨booted options image start, limit⟩
  constructor
  · rintro ⟨fuel, hreport⟩
    rw [run, Session.prepare_of_accepted h] at hreport
    simp only at hreport
    split at hreport
    next verdict final hadvance =>
      obtain ⟨steps, hfinishes, hfinal⟩ :=
        (hends (halted_booted options image start)).mp ⟨fuel, final.remaining, hadvance⟩
      refine ⟨steps, verdict, hfinishes, ?_⟩
      rw [← hfinal]
      exact (Option.some.inj hreport).symm
    next => cases hreport
  · rintro ⟨steps, verdict, hfinishes, rfl⟩
    obtain ⟨fuel, remaining, hadvance⟩ :=
      (hends (halted_booted options image start)).mpr ⟨steps, hfinishes, rfl⟩
    refine ⟨fuel, ?_⟩
    rw [run, Session.prepare_of_accepted h]
    simp only
    rw [hadvance]
    rfl

/-- The report of a session is about the core and the bus of its machine. -/
theorem Session.conclude_congr {machine machine' : Machine Peripheral}
    (hcore : machine.core = machine'.core) (hbus : machine.bus = machine'.bus)
    (remaining : Option Nat) (withDump : Bool) (verdict : Except Fault Bool) :
    conclude ⟨machine, remaining⟩ withDump verdict =
      conclude ⟨machine', remaining⟩ withDump verdict := by
  obtain ⟨core, bus, halted, log⟩ := machine
  obtain ⟨core', bus', halted', log'⟩ := machine'
  cases hcore
  cases hbus
  rfl

/-- A session that ends with a fault is as it was before the instruction that failed. -/
theorem conclude_of_fault (h : image.size ≤ 0x10000) {k : Nat} {fault : Fault}
    (hfault : ((booted options image start).after k).step.1 = .error fault)
    (verdict : Except Fault Bool) :
    Session.conclude ⟨(booted options image start).after (k + 1), none⟩ options.dump verdict =
      Session.conclude ⟨(booted options image start).after k, none⟩ options.dump verdict := by
  have hbus := Machine.bus_of_backed Buffer.steady (backed_booted options start h k) hfault
  rw [Machine.after_succ]
  exact Session.conclude_congr (Machine.core_of_step_eq_error hfault).1 hbus none options.dump verdict

theorem conclude_eq (h : image.size ≤ 0x10000) {n : Nat} {output : Array Byte}
    (houtput : Printed ((booted options image start).after n) (drawing options image start n)
      options.dump output) (verdict : Except Fault Bool) :
    Session.conclude ⟨(booted options image start).after n, none⟩ options.dump verdict =
      match verdict with
      | .ok true => ⟨0, output, ""⟩
      | .ok false => ⟨1, output, "Error: step limit reached without halting\n"⟩
      | .error fault =>
        ⟨1, output, "Error: machine fault\n\nCaused by:\n    " ++ fault.message ++ "\n"⟩ := by
  obtain rfl := (printed_iff h).mp houtput
  obtain fault | _ | _ := verdict <;> rfl

theorem exists_printed (options : Options) (start : Word) (h : image.size ≤ 0x10000) (n : Nat) :
    ∃ output, Printed ((booted options image start).after n) (drawing options image start n)
      options.dump output :=
  ⟨_, (printed_iff h).mpr rfl⟩

theorem reports_of_finishes (h : Accepted options image start limit) {steps : Nat}
    {verdict : Except Fault Bool}
    (hfinishes : Session.Finishes ⟨booted options image start, limit⟩ steps verdict) :
    Reports options image
      (Session.conclude ⟨(booted options image start).after steps, none⟩ options.dump verdict) := by
  cases hfinishes with
  | @stops k hstops hlimit =>
    cases hstep : ((booted options image start).after k).step.1 with
    | error fault =>
      obtain ⟨output, houtput⟩ := exists_printed options start h.size k
      rw [conclude_of_fault h.size hstep, conclude_eq h.size houtput]
      exact .failed h hstops.goesOn hstep (Fault.says_iff.mpr rfl) hlimit houtput
    | ok halted =>
      obtain ⟨output, houtput⟩ := exists_printed options start h.size (k + 1)
      cases halted with
      | true =>
        rw [conclude_eq h.size houtput]
        exact .halted h ⟨hstops.goesOn, hstep⟩ hlimit houtput
      | false => exact absurd hstep hstops.stops
  | exhausted hlimit hgo =>
    obtain rfl : limit = some steps := hlimit
    obtain ⟨output, houtput⟩ := exists_printed options start h.size steps
    rw [conclude_eq h.size houtput]
    exact .exhausted h hgo houtput

/-- What a run reports. -/
theorem prints_iff_reports : Prints options image report ↔ Reports options image report := by
  constructor
  · intro h
    rcases accepted_or_refused options image with ⟨start, limit, haccepted⟩ | ⟨failure, hrefused⟩
    · obtain ⟨steps, verdict, hfinishes, rfl⟩ := (prints_iff_of_accepted haccepted).mp h
      exact reports_of_finishes haccepted hfinishes
    · obtain rfl := (prints_iff_of_refused hrefused).mp h
      exact .refused hrefused (Failure.says_iff.mpr rfl)
  · intro h
    cases h with
    | refused h herrors =>
      rw [Failure.says_iff.mp herrors]
      exact (prints_iff_of_refused h).mpr rfl
    | @halted start limit k output h hhalts hlimit houtput =>
      refine (prints_iff_of_accepted h).mpr ⟨k + 1, _, .stops hhalts.toStops hlimit, ?_⟩
      rw [conclude_eq h.size houtput, hhalts.halts]
    | @failed start limit k fault reason output h hgo hfault hreason hlimit houtput =>
      have hstops : (booted options image start).Stops k := by
        refine ⟨hgo, ?_⟩
        rw [hfault]
        exact nofun
      refine (prints_iff_of_accepted h).mpr ⟨k + 1, _, .stops hstops hlimit, ?_⟩
      rw [conclude_of_fault h.size hfault, conclude_eq h.size houtput, hfault, Fault.says_iff.mp hreason]
    | @exhausted start n output h hgo houtput =>
      refine (prints_iff_of_accepted h).mpr ⟨n, _, .exhausted rfl hgo, ?_⟩
      rw [conclude_eq h.size houtput]

/-- There is one report at most. -/
theorem Prints.unique {report' : Report} (h : Prints options image report)
    (h' : Prints options image report') : report = report' := by
  rcases accepted_or_refused options image with ⟨start, limit, haccepted⟩ | ⟨failure, hrefused⟩
  · obtain ⟨steps, verdict, hfinishes, rfl⟩ := (prints_iff_of_accepted haccepted).mp h
    obtain ⟨steps', verdict', hfinishes', rfl⟩ := (prints_iff_of_accepted haccepted).mp h'
    obtain ⟨rfl, rfl⟩ := hfinishes.unique hfinishes'
    rfl
  · rw [(prints_iff_of_refused hrefused).mp h, (prints_iff_of_refused hrefused).mp h']

/-- A run reports something unless it has no limit and goes on forever. -/
theorem prints_or_goesOn (options : Options) (image : Array Byte) :
    (∃ report, Prints options image report) ∨
      ∃ start, Accepted options image start none ∧
        ∀ n, (booted options image start).GoesOn n := by
  rcases accepted_or_refused options image with ⟨start, limit, haccepted⟩ | ⟨failure, hrefused⟩
  · by_cases hgo : ∀ n, Session.GoesOn ⟨booted options image start, limit⟩ n
    · cases limit with
      | none => exact Or.inr ⟨start, haccepted, fun n => (hgo n).machine⟩
      | some limit => exact absurd ((hgo limit).limit limit rfl) (Nat.lt_irrefl limit)
    · obtain ⟨n, hn⟩ := not_forall.mp hgo
      obtain ⟨steps, -, verdict, hfinishes⟩ := (Session.goesOn_or_finishes _ n).resolve_left hn
      exact Or.inl ⟨_, (prints_iff_of_accepted haccepted).mpr ⟨steps, verdict, hfinishes, rfl⟩⟩
  · exact Or.inl ⟨_, (prints_iff_of_refused hrefused).mpr rfl⟩

end CommandLine

end WordMachine
