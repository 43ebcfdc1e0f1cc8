import Mathlib.Data.List.Forall2
import WordMachine.Proofs.Drawing

/-!
# The stream of a screen

What a screen sends for one word follows what it sent for another without a mark between them. The
character at the end may be any of 256, also one that begins an escape sequence or continues a number,
and three commands begin as the movement of the cursor does. A reader that takes the stream one character
after the other can tell the words apart even so, and learns all of a word but a high byte that is no
command.

* `Sink.Accepts.eval_ofPlan`: the accesses to a screen succeed and send their texts.
* `run_text`: a reader of the text of a drawing comes to know the drawing.
* `eq_of_text_isPrefix`: no text of a drawing is the beginning of another.
* `decode_text`: a stream is decoded into the drawings that it was made of.
* `escapeStream`: what a screen sends, decoded and compared.
-/

namespace WordMachine.Screen

/-! ## Drawings -/

/-- The commands of a screen. -/
inductive Command where
  | bold
  | regular
  | clear
deriving DecidableEq, Repr

/-- The command that a byte stands for. -/
def Command.ofByte? : Byte → Option Command
  | 0x01 => some .bold
  | 0x02 => some .regular
  | 0xff => some .clear
  | _ => none

/-- What performs a command. -/
def Command.text : Command → List Char
  | bold => [escape, '[', '1', 'm']
  | regular => [escape, '[', '0', 'm']
  | clear => [escape, '[', '2', 'J']

/-- What a screen shows of a word written to it. -/
structure Drawing where
  command : Option Command
  address : Word
  character : Byte
deriving DecidableEq, Repr

/-- The drawing of a word written to an address. -/
def Drawing.ofWrite (write : Word × Word) : Drawing :=
  ⟨Command.ofByte? (Word.high write.2), write.1, Word.low write.2⟩

def Drawing.text (drawing : Drawing) : List Char :=
  drawing.command.elim [] Command.text ++ (cursorText drawing.address).flatten ++
    [Char.ofUInt8 drawing.character]

theorem flatten_commandText (b : Byte) :
    (commandText b).flatten = (Command.ofByte? b).elim [] Command.text := by
  unfold commandText Command.ofByte?
  split <;> simp_all [Command.text]

/-- The pieces that are sent for a word make up the text of its drawing. -/
theorem flatten_rendering (a value : Word) :
    (rendering a value).flatten = (Drawing.ofWrite (a, value)).text := by
  rw [rendering, List.flatten_append, List.flatten_append, flatten_commandText, List.flatten_singleton]
  rfl

/-! ## Reading -/

/-- What a reader of the stream expects next. -/
inductive Phase where
  /-- an escape sequence -/
  | ready
  /-- the rest of an escape sequence -/
  | escaped
  /-- more of the first number of an escape sequence, or what follows it -/
  | first (n : Nat)
  /-- more of the second number, or what follows it -/
  | second (row n : Nat)
  /-- the character of the cell at the cursor -/
  | character (row column : Nat)
deriving DecidableEq, Repr

/-- A reader of the stream, with the drawings that it has read and a command of the next one. -/
structure Reader where
  drawings : List Drawing
  command : Option Command
  phase : Phase
deriving DecidableEq, Repr

/-- The address of the cell at which the cursor is. -/
def cell (row column : Nat) : Word := .ofNat (columns * (row - 1) + column / 2 - 1)

/-- The command that a number and the character after it stand for. -/
def Command.ofSequence? : Nat → Char → Option Command
  | 1, 'm' => some .bold
  | 0, 'm' => some .regular
  | 2, 'J' => some .clear
  | _, _ => none

namespace Reader

/-- A reader that takes a character. -/
def step : Reader → Char → Option Reader
  | ⟨drawings, command, .ready⟩, c =>
    if c = escape then some ⟨drawings, command, .escaped⟩ else none
  | ⟨drawings, command, .escaped⟩, c =>
    if c = '[' then some ⟨drawings, command, .first 0⟩ else none
  | ⟨drawings, command, .first n⟩, c =>
    if c.isDigit then some ⟨drawings, command, .first (10 * n + (c.toNat - '0'.toNat))⟩
    else if c = ';' then some ⟨drawings, command, .second n 0⟩
    else (Command.ofSequence? n c).map fun command => ⟨drawings, some command, .ready⟩
  | ⟨drawings, command, .second row n⟩, c =>
    if c.isDigit then some ⟨drawings, command, .second row (10 * n + (c.toNat - '0'.toNat))⟩
    else if c = 'H' then some ⟨drawings, command, .character row n⟩ else none
  | ⟨drawings, command, .character row column⟩, c =>
    some ⟨drawings ++ [⟨command, cell row column, c.toUInt8⟩], none, .ready⟩

/-- A reader that takes a text, unless it comes upon a character that it does not expect. -/
def run (reader : Reader) (text : List Char) : Option Reader := text.foldlM step reader

/-- A reader that has read some drawings and is at the beginning of the next one. -/
def after (drawings : List Drawing) : Reader := ⟨drawings, none, .ready⟩

end Reader

/-- The drawings that a stream was made of. -/
def decode (stream : List Byte) : Option (List Drawing) := do
  let text ← stream.toByteArray.utf8Decode?
  let reader ← (Reader.after []).run text.toList
  if reader = .after reader.drawings then some reader.drawings else none

namespace Reader

variable {reader : Reader}

theorem run_append {reader₁ : Reader} {first : List Char} (second : List Char)
    (h : reader.run first = some reader₁) : reader.run (first ++ second) = reader₁.run second := by
  rw [run, List.foldlM_append, ← run, h]
  rfl

/-- A reader that adds digits to a number reads all of its digits. -/
theorem run_digits {reading : Nat → Reader}
    (hstep : ∀ n c, c.isDigit = true →
      (reading n).step c = some (reading (10 * n + (c.toNat - '0'.toNat)))) (n : Nat) :
    (reading 0).run (Nat.toDigits 10 n) = some (reading n) := by
  have hrun : ∀ (digits : List Char) (m : Nat), (∀ c ∈ digits, c.isDigit = true) →
      (reading m).run digits = some (reading (Nat.ofDigitChars 10 digits m)) := by
    intro digits
    induction digits with
    | nil => exact fun m _ => rfl
    | cons c digits ih =>
      intro m hdigits
      have hc := hstep m c (hdigits c List.mem_cons_self)
      rw [run, List.foldlM_cons, hc]
      exact ih _ fun d hd => hdigits d (List.mem_cons_of_mem c hd)
  rw [hrun _ 0 fun c hc => Nat.isDigit_of_mem_toDigits (by decide) (by decide) hc,
    Nat.ofDigitChars_ten_toDigits]

theorem run_command (drawings : List Drawing) (command : Option Command) :
    (after drawings).run (command.elim [] Command.text) = some ⟨drawings, command, .ready⟩ := by
  obtain _ | _ | _ | _ := command <;> rfl

theorem run_cursor (drawings : List Drawing) (command : Option Command) (a : Word) :
    (⟨drawings, command, .ready⟩ : Reader).run (cursorText a).flatten =
      some ⟨drawings, command,
        .character (a.toNat / columns + 1) (2 * (a.toNat % columns + 1))⟩ := by
  have hbegin : (⟨drawings, command, .ready⟩ : Reader).run [escape, '['] =
      some ⟨drawings, command, .first 0⟩ := rfl
  have hrow := @run_digits (fun n => ⟨drawings, command, .first n⟩) (fun n c hc => if_pos hc)
    (a.toNat / columns + 1)
  have hbetween : ∀ row, (⟨drawings, command, .first row⟩ : Reader).run [';'] =
      some ⟨drawings, command, .second row 0⟩ := fun _ => rfl
  have hcolumn := @run_digits (fun n => ⟨drawings, command, .second (a.toNat / columns + 1) n⟩)
    (fun n c hc => if_pos hc) (2 * (a.toNat % columns + 1))
  rw [cursorText, List.flatten_cons, run_append _ hbegin, List.flatten_cons, run_append _ hrow,
    List.flatten_cons, run_append _ (hbetween _), List.flatten_cons, run_append _ hcolumn]
  rfl

theorem cell_cursor (a : Word) :
    cell (a.toNat / columns + 1) (2 * (a.toNat % columns + 1)) = a := by
  have hcell : columns * (a.toNat / columns + 1 - 1) + 2 * (a.toNat % columns + 1) / 2 - 1 =
      a.toNat := by
    rw [columns]
    omega
  rw [cell, hcell, UInt16.ofNat_toNat]

theorem toUInt8_ofUInt8 (b : Byte) : (Char.ofUInt8 b).toUInt8 = b := UInt8.toUInt8_toUInt32 b

/-- A reader of the text of a drawing comes to know the drawing. -/
theorem run_text (drawings : List Drawing) (drawing : Drawing) :
    (after drawings).run drawing.text = some (after (drawings ++ [drawing])) := by
  obtain ⟨command, a, character⟩ := drawing
  rw [Drawing.text, List.append_assoc, run_append _ (run_command drawings command),
    run_append _ (run_cursor drawings command a)]
  change some (after (drawings ++ [⟨command, cell _ _, (Char.ofUInt8 character).toUInt8⟩])) = _
  rw [cell_cursor, toUInt8_ofUInt8]

theorem run_flatMap_text (drawings more : List Drawing) :
    (after drawings).run (more.flatMap Drawing.text) = some (after (drawings ++ more)) := by
  induction more generalizing drawings with
  | nil => rw [List.append_nil]; rfl
  | cons drawing more ih =>
    rw [List.flatMap_cons, run_append _ (run_text drawings drawing), ih, List.append_assoc]
    rfl

/-! A reader does not take back what it has read. -/

theorem drawings_step {reader' : Reader} {c : Char} (h : reader.step c = some reader') :
    reader.drawings <+: reader'.drawings := by
  fun_cases Reader.step reader c <;>
    grind [Reader.step, List.prefix_append, Option.map_eq_some_iff]

theorem drawings_run {reader' : Reader} {text : List Char} (h : reader.run text = some reader') :
    reader.drawings <+: reader'.drawings := by
  induction text generalizing reader with
  | nil =>
    cases h
    exact List.prefix_rfl
  | cons c text ih =>
    rw [run, List.foldlM_cons] at h
    obtain ⟨reader₁, hstep, hrest⟩ := Option.bind_eq_some_iff.mp h
    exact (drawings_step hstep).trans (ih hrest)

end Reader

/-- No text of a drawing is the beginning of another. -/
theorem eq_of_text_isPrefix {drawing drawing' : Drawing} (h : drawing.text <+: drawing'.text) :
    drawing = drawing' := by
  obtain ⟨rest, hrest⟩ := h
  have hrun := Reader.run_text [] drawing'
  rw [← hrest, Reader.run_append rest (Reader.run_text [] drawing)] at hrun
  have hprefix : [drawing] <+: [drawing'] := Reader.drawings_run hrun
  exact (List.cons_prefix_cons.mp hprefix).1

/-- A stream is decoded into the drawings that it was made of. -/
theorem decode_text (drawings : List Drawing) :
    decode (encode (drawings.flatMap Drawing.text)) = some drawings := by
  have hbytes : (encode (drawings.flatMap Drawing.text)).toByteArray =
      (drawings.flatMap Drawing.text).utf8Encode := rfl
  rw [decode, hbytes, List.utf8Decode?_utf8Encode]
  change ((Reader.after []).run (drawings.flatMap Drawing.text)).bind _ = _
  rw [Reader.run_flatMap_text]
  exact if_pos rfl

/-! ## Accesses -/

/-- Two words, each with its address, of which a screen shows the same. -/
structure Alike (write write' : Word × Word) : Prop where
  address : write.1 = write'.1
  character : Word.low write.2 = Word.low write'.2
  command : Command.ofByte? (Word.high write.2) = Command.ofByte? (Word.high write'.2)

theorem ofWrite_eq_iff {write write' : Word × Word} :
    Drawing.ofWrite write = Drawing.ofWrite write' ↔ Alike write write' := by
  rw [Drawing.ofWrite, Drawing.ofWrite, Drawing.mk.injEq]
  exact ⟨fun ⟨hcommand, haddress, hcharacter⟩ => ⟨haddress, hcharacter, hcommand⟩,
    fun ⟨haddress, hcharacter, hcommand⟩ => ⟨hcommand, haddress, hcharacter⟩⟩

theorem map_ofWrite_eq_iff {writes writes' : List (Word × Word)} :
    writes.map Drawing.ofWrite = writes'.map Drawing.ofWrite ↔ List.Forall₂ Alike writes writes' := by
  rw [← List.forall₂_eq_eq_eq, List.forall₂_map_left_iff, List.forall₂_map_right_iff]
  simp only [ofWrite_eq_iff]

/-- The words that are written by accesses, each with its address. -/
def wordWrites (accesses : List (Word × Request)) : List (Word × Word) :=
  accesses.filterMap fun
    | (a, .writeWord value) => some (a, value)
    | _ => none

theorem flatten_map_encode (pieces : List (List Char)) :
    (pieces.map encode).flatten = encode pieces.flatten := by
  have hflatten : pieces.flatten = pieces.flatMap id := List.flatMap_id.symm
  rw [← List.flatMap_def, hflatten, encode, List.flatMap_assoc]
  rfl

/-- Accesses send something for the words among them only. -/
theorem flatMap_sent_eq_flatMap_rendering (accesses : List (Word × Request)) :
    (accesses.flatMap fun access => sent access.1 access.2) =
      (wordWrites accesses).flatMap fun write =>
        ((rendering write.1 write.2).map encode).flatten := by
  induction accesses with
  | nil => rfl
  | cons access accesses ih =>
    obtain ⟨a, request⟩ := access
    rw [List.flatMap_cons, ih]
    cases request <;> rfl

/-- What accesses send are the texts of the drawings of the words among them. -/
theorem flatMap_sent (accesses : List (Word × Request)) :
    (accesses.flatMap fun access => sent access.1 access.2) =
      encode (((wordWrites accesses).map Drawing.ofWrite).flatMap Drawing.text) := by
  rw [flatMap_sent_eq_flatMap_rendering, encode, List.flatMap_map, List.flatMap_assoc]
  simp only [flatten_map_encode, flatten_rendering]
  rfl

end WordMachine.Screen

namespace WordMachine

variable {σ : Type} [Sink σ]

/-- Accesses to a screen succeed if its sink does not fail, and send their texts to it. -/
theorem Sink.Accepts.eval_ofPlan {holds : List Byte → σ → Prop} (h : Sink.Accepts holds)
    {bytes : List Byte} {screen : Screen σ} (hs : holds bytes screen.sink)
    (accesses : List (Word × Request)) :
    ∃ screen', (BusProgram.ofPlan accesses).eval screen = (.ok (), screen') ∧
      holds (bytes ++ accesses.flatMap fun access => Screen.sent access.1 access.2) screen'.sink := by
  induction accesses generalizing bytes screen with
  | nil => exact ⟨screen, rfl, by rwa [List.flatMap_nil, List.append_nil]⟩
  | cons access accesses ih =>
    obtain ⟨reply, sink', hanswer, hs'⟩ := h.screen hs access.1 access.2
    have hscreen : holds _ (⟨sink'⟩ : Screen σ).sink := hs'
    rw [BusProgram.ofPlan, BusProgram.eval, hanswer, List.flatMap_cons, ← List.append_assoc]
    exact ih hscreen

/-- Open buffers do not fail, and have in them what they have taken. -/
theorem Buffer.accepts_toList :
    Sink.Accepts fun bytes (buffer : Buffer) => buffer.Open ∧ buffer.written.toList = bytes where
  write {bytes buffer} first rest h := by
    obtain ⟨hopen, rfl⟩ := h
    have hempty : buffer = buffer.extended [] := buffer.extended_nil.symm
    obtain ⟨taken, buffer', hwrite, rfl⟩ := (Buffer.accepts hopen).write first rest hempty
    exact ⟨taken, _, hwrite, hopen.extended _, by simp [Buffer.extended]⟩
  flush {bytes buffer} h := by
    have hempty : buffer = buffer.extended [] := buffer.extended_nil.symm
    obtain ⟨buffer', hflush, hbuffer⟩ := (Buffer.accepts h.1).flush hempty
    rw [← hempty] at hbuffer
    exact ⟨buffer', hflush, by rwa [hbuffer]⟩

namespace Screen

/-- Whether an access writes a word. -/
def WritesWord (access : Word × Request) : Prop := ∃ value, access.2 = .writeWord value

/-- Accesses that do not write a word leave a screen as it is, whatever its sink. -/
theorem eval_ofPlan_of_not_writesWord {accesses : List (Word × Request)}
    (h : ∀ access ∈ accesses, ¬WritesWord access) (screen : Screen σ) :
    (BusProgram.ofPlan accesses).eval screen = (.ok (), screen) := by
  induction accesses with
  | nil => rfl
  | cons access accesses ih =>
    obtain ⟨a, request⟩ := access
    have hrest := ih fun access haccess => h access (List.mem_cons_of_mem _ haccess)
    cases request with
    | readByte | readWord | writeByte value => exact hrest
    | writeWord value => exact absurd ⟨value, rfl⟩ (h _ List.mem_cons_self)

/-- The bytes that a sink takes in the course of accesses to its screen. -/
def emitted (taken : σ → List Byte) (screen : Screen σ) (accesses : List (Word × Request)) :
    List Byte :=
  (taken ((BusProgram.ofPlan accesses).eval screen).2.sink).drop (taken screen.sink).length

/-- What a screen sends in the course of accesses. -/
structure EscapeStream (taken : σ → List Byte) (screen : Screen σ) : Prop where
  succeeds : ∀ accesses, ((BusProgram.ofPlan accesses).eval screen).1 = .ok ()
  /-- the texts of the words, one behind the other, are added to what the sink has taken before -/
  sends : ∀ accesses,
    taken ((BusProgram.ofPlan accesses).eval screen).2.sink =
        taken screen.sink ++ screen.emitted taken accesses ∧
      screen.emitted taken accesses = (wordWrites accesses).flatMap fun write =>
        ((rendering write.1 write.2).map encode).flatten
  /-- all that a screen shows of the words can be decoded -/
  decoded : ∀ accesses,
    decode (screen.emitted taken accesses) = some ((wordWrites accesses).map Drawing.ofWrite)
  /-- equal streams come from words of which it shows the same, and from no others -/
  unique : ∀ accesses accesses',
    screen.emitted taken accesses = screen.emitted taken accesses' ↔
      List.Forall₂ Alike (wordWrites accesses) (wordWrites accesses')
  /-- nothing is sent for bytes that are written and for what is read -/
  silent : ∀ accesses, (∀ access ∈ accesses, ¬WritesWord access) →
    screen.emitted taken accesses = [] ∧ ((BusProgram.ofPlan accesses).eval screen).2 = screen

section

variable {steady : σ → Prop} {taken : σ → List Byte} {screen : Screen σ}
  (haccepts : Sink.Accepts fun bytes sink => steady sink ∧ taken sink = bytes)
  (hsteady : steady screen.sink)

include haccepts hsteady

theorem eval_ofPlan (accesses : List (Word × Request)) :
    ((BusProgram.ofPlan accesses).eval screen).1 = .ok () ∧
      taken ((BusProgram.ofPlan accesses).eval screen).2.sink =
        taken screen.sink ++ accesses.flatMap fun access => sent access.1 access.2 := by
  have hsink : steady screen.sink ∧ taken screen.sink = taken screen.sink := ⟨hsteady, rfl⟩
  obtain ⟨screen', heval, -, htaken⟩ := haccepts.eval_ofPlan hsink accesses
  rw [heval]
  exact ⟨rfl, htaken⟩

theorem emitted_eq_flatMap_sent (accesses : List (Word × Request)) :
    screen.emitted taken accesses = accesses.flatMap fun access => sent access.1 access.2 := by
  rw [emitted, (eval_ofPlan haccepts hsteady accesses).2, List.drop_left]

theorem decode_emitted (accesses : List (Word × Request)) :
    decode (screen.emitted taken accesses) = some ((wordWrites accesses).map Drawing.ofWrite) := by
  rw [emitted_eq_flatMap_sent haccepts hsteady, flatMap_sent, decode_text]

theorem emitted_eq_iff (accesses accesses' : List (Word × Request)) :
    screen.emitted taken accesses = screen.emitted taken accesses' ↔
      List.Forall₂ Alike (wordWrites accesses) (wordWrites accesses') := by
  rw [← map_ofWrite_eq_iff]
  constructor
  · intro h
    have hdecoded := decode_emitted haccepts hsteady accesses
    rw [h, decode_emitted haccepts hsteady] at hdecoded
    exact (Option.some.inj hdecoded).symm
  · intro h
    rw [emitted_eq_flatMap_sent haccepts hsteady, emitted_eq_flatMap_sent haccepts hsteady,
      flatMap_sent, flatMap_sent, h]

/-- The stream of a screen can be decoded, whatever is written to it. -/
theorem escapeStream : EscapeStream taken screen where
  succeeds accesses := (eval_ofPlan haccepts hsteady accesses).1
  sends accesses := by
    have hemitted := emitted_eq_flatMap_sent haccepts hsteady accesses
    refine ⟨by rw [hemitted, (eval_ofPlan haccepts hsteady accesses).2], ?_⟩
    rw [hemitted, flatMap_sent_eq_flatMap_rendering]
  decoded := decode_emitted haccepts hsteady
  unique := emitted_eq_iff haccepts hsteady
  silent accesses h := by
    have heval := eval_ofPlan_of_not_writesWord h screen
    rw [emitted, heval, List.drop_length]
    exact ⟨rfl, rfl⟩

end

/-- Two words that end in characters which begin escape sequences, and a byte that is not shown. -/
theorem decode_emitted_escapes :
    decode ((⟨.unlimited⟩ : Screen Buffer).emitted (fun buffer => buffer.written.toList)
        [(0x23, .writeWord 0x011b), (0x23, .writeByte 0x48), (0xffff, .writeWord 0xff9b)]) =
      some [⟨some .bold, 0x23, 0x1b⟩, ⟨some .clear, 0xffff, 0x9b⟩] :=
  (escapeStream Buffer.accepts_toList ⟨rfl, rfl⟩).decoded _

end Screen

end WordMachine
