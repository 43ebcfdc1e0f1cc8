import Mathlib.Data.List.Infix
import WordMachine.Proofs.Deliveries
import WordMachine.Proofs.EscapeStream

/-!
# A screen whose sink is full

A sink may have room for a limited number of bytes only. The text of a word that is written is sent in
several pieces, and the room may be used up anywhere in any of them. What is in the sink is the
beginning of all that was sent nevertheless: it takes bytes as long as there is room, and nothing
behind the first byte that was refused.

* `Limited.writeAll`, `Limited.offer`: bytes that are offered to a sink with a limit, at once and in
  pieces.
* `Limited.after`: the sink of a screen after any accesses.
* `limitedStream`: what a screen sends to a sink with a limit, and how it answers.
* `limitedOutput`: what a machine sends to the sink of a screen on its bus.
* `sends_beginning`: both of them.
-/

namespace WordMachine

variable {σ : Type} [Sink σ]

namespace Sink

/-! ## Sinks with a limit -/

/-- A sink does not take any of some bytes that are offered to it, for the reason given. -/
def Refuses (sink : σ) (reason : String) : Prop :=
  ∃ first rest, (write sink (first :: rest)).1 = .error reason ∨
    (write sink (first :: rest)).1 = .ok 0 ∧ reason = stalled

/-- The states into which a sink can get. -/
inductive Reaches (sink : σ) : σ → Prop
  | refl : Reaches sink sink
  | write {later : σ} (bytes : List Byte) : Reaches sink later → Reaches sink (write later bytes).2
  | flush {later : σ} : Reaches sink later → Reaches sink (flush later).2

/-- The sinks of a family take as many bytes as the limit says in the course of their life. Each of
    them is there with the bytes that it has taken. -/
structure Limited (limit : Nat) (holds : List Byte → σ → Prop) : Prop where
  length_le : ∀ {bytes : List Byte} {sink : σ}, holds bytes sink → bytes.length ≤ limit
  /-- while there is room, some of the bytes that are offered are taken -/
  takes : ∀ {bytes : List Byte} {sink : σ} (first : Byte) (rest : List Byte), holds bytes sink →
    bytes.length < limit → ∃ count sink', count ≤ rest.length ∧
      write sink (first :: rest) = (.ok (count + 1), sink') ∧
        holds (bytes ++ (first :: rest).take (count + 1)) sink'
  /-- without room a write fails, or takes nothing -/
  refuses : ∀ {bytes : List Byte} {sink : σ} (first : Byte) (rest : List Byte), holds bytes sink →
    bytes.length = limit →
      ((∃ reason, (write sink (first :: rest)).1 = .error reason) ∨
        (write sink (first :: rest)).1 = .ok 0) ∧ holds bytes (write sink (first :: rest)).2
  /-- to flush a sink may fail, and changes nothing of what it has taken -/
  flush : ∀ {bytes : List Byte} {sink : σ}, holds bytes sink → holds bytes (flush sink).2

/-- A text was offered to a sink: all of it was taken, or the sink has become full. -/
inductive Offered (limit : Nat) (holds : List Byte → σ → Prop) (text : List Byte) :
    Except String Unit × σ → Prop
  | all {sink : σ} (hle : text.length ≤ limit) (hs : holds text sink) :
      Offered limit holds text (.ok (), sink)
  | cut {full sink : σ} {reason : String} (hlt : limit < text.length)
      (hfull : holds (text.take limit) full) (hrefuses : Refuses full reason)
      (hs : holds (text.take limit) sink) : Offered limit holds text (.error reason, sink)

section

variable {limit : Nat} {holds : List Byte → σ → Prop} {bytes text more : List Byte} {sink : σ}

theorem take_append_take (limit : Nat) (text more : List Byte) :
    (text.take limit ++ more).take limit = (text ++ more).take limit := by
  rw [List.take_append, List.take_append, List.take_take, Nat.min_self, List.length_take]
  congr 2
  omega

/-- A sink to which a text was offered has the beginning of it. -/
theorem Offered.holds_take {outcome : Except String Unit × σ} (h : Offered limit holds text outcome) :
    holds (text.take limit) outcome.2 := by
  cases h with
  | all hle hs => rwa [List.take_of_length_le hle]
  | cut hlt hfull hrefuses hs => exact hs

/-- A sink that is full holds no more of a text than it has taken. -/
theorem Offered.cut_of_length (hs : holds bytes sink) (hlength : bytes.length = limit)
    {full : σ} (hfull : holds bytes full) {reason : String} (hrefuses : Refuses full reason)
    (hmore : more ≠ []) : Offered limit holds (bytes ++ more) (.error reason, sink) := by
  have hpos := List.length_pos_iff.mpr hmore
  have htake : (bytes ++ more).take limit = bytes := List.take_left' hlength
  refine .cut ?_ (by rwa [htake]) hrefuses (by rwa [htake])
  rw [List.length_append]
  omega

/-- What comes behind a text that was cut off makes no difference. -/
theorem Offered.append_of_error {reason : String}
    (h : Offered limit holds text (.error reason, sink)) (more : List Byte) :
    Offered limit holds (text ++ more) (.error reason, sink) := by
  cases h with
  | cut hlt hfull hrefuses hs =>
    have htake : (text ++ more).take limit = text.take limit :=
      List.take_append_of_le_length (Nat.le_of_lt hlt)
    refine .cut ?_ (by rwa [htake]) hrefuses (by rwa [htake])
    rw [List.length_append]
    omega

/-- What a text is cut to makes no difference either, if there is more of it. -/
theorem Offered.of_take {outcome : Except String Unit × σ} (hmore : more ≠ [])
    (h : Offered limit holds (text.take limit ++ more) outcome) :
    Offered limit holds (text ++ more) outcome := by
  rcases Nat.lt_or_ge limit text.length with hlt | hle
  · have hpos := List.length_pos_iff.mpr hmore
    have hlength : (text.take limit).length = limit := List.length_take_of_le (Nat.le_of_lt hlt)
    cases h with
    | all hle hs =>
      rw [List.length_append] at hle
      omega
    | cut _ hfull hrefuses hs =>
      rw [take_append_take] at hfull hs
      refine .cut ?_ hfull hrefuses hs
      rw [List.length_append]
      omega
  · rwa [List.take_of_length_le hle] at h

/-- A write that makes no progress is one to a full sink. -/
theorem Limited.full_of_write (h : Limited limit holds) (hs : holds bytes sink) {first : Byte}
    {rest : List Byte} {result : Except String Nat} {sink' : σ}
    (hwrite : write sink (first :: rest) = (result, sink'))
    (hresult : ∀ count, result ≠ .ok (count + 1)) :
    bytes.length = limit ∧ holds bytes sink' := by
  rcases Nat.lt_or_eq_of_le (h.length_le hs) with hlt | hfull
  · obtain ⟨count, _, -, hprogress, -⟩ := h.takes first rest hs hlt
    rw [hwrite] at hprogress
    exact absurd (congrArg Prod.fst hprogress) (hresult count)
  · obtain ⟨-, hs'⟩ := h.refuses first rest hs hfull
    rw [hwrite] at hs'
    exact ⟨hfull, hs'⟩

/-- Bytes are offered until all of them are taken or there is no room left. -/
theorem Limited.writeAll (h : Limited limit holds) (hs : holds bytes sink) (piece : List Byte) :
    Offered limit holds (bytes ++ piece) (Sink.writeAll sink piece) := by
  induction sink, piece using Sink.writeAll.induct generalizing bytes with
  | case1 sink =>
    rw [Sink.writeAll, List.append_nil]
    exact .all (h.length_le hs) hs
  | case2 sink first rest reason sink' heq =>
    obtain ⟨hfull, hs'⟩ := h.full_of_write hs heq fun _ hprogress => by cases hprogress
    have hrefuses : Refuses sink reason := ⟨first, rest, Or.inl (by rw [heq])⟩
    rw [Sink.writeAll, heq]
    exact .cut_of_length hs' hfull hs hrefuses (List.cons_ne_nil _ _)
  | case3 sink first rest sink' heq =>
    obtain ⟨hfull, hs'⟩ := h.full_of_write hs heq fun _ hprogress => by cases hprogress
    have hrefuses : Refuses sink stalled := ⟨first, rest, Or.inr ⟨by rw [heq], rfl⟩⟩
    rw [Sink.writeAll, heq]
    exact .cut_of_length hs' hfull hs hrefuses (List.cons_ne_nil _ _)
  | case4 sink first rest taken sink' heq ih =>
    rcases Nat.lt_or_eq_of_le (h.length_le hs) with hlt | hfull
    · obtain ⟨count, _, -, hwrite, hs'⟩ := h.takes first rest hs hlt
      rw [heq] at hwrite
      cases hwrite
      have hrest := ih hs'
      rw [List.take_succ_cons, List.append_assoc, List.cons_append, List.take_append_drop] at hrest
      rw [Sink.writeAll, heq]
      exact hrest
    · obtain ⟨hresult, -⟩ := h.refuses first rest hs hfull
      rw [heq] at hresult
      simp at hresult

/-- A limited sink stays what it is, and is one that the sink at the beginning can get to. -/
theorem Limited.reaching (h : Limited limit holds) (start : σ) :
    Limited limit fun bytes sink => holds bytes sink ∧ Reaches start sink where
  length_le hs := h.length_le hs.1
  takes first rest hs hlt := by
    obtain ⟨count, sink', hcount, hwrite, hs'⟩ := h.takes first rest hs.1 hlt
    have hreaches := hs.2.write (first :: rest)
    rw [hwrite] at hreaches
    exact ⟨count, sink', hcount, hwrite, hs', hreaches⟩
  refuses first rest hs hfull := by
    obtain ⟨hresult, hs'⟩ := h.refuses first rest hs.1 hfull
    exact ⟨hresult, hs', hs.2.write (first :: rest)⟩
  flush hs := ⟨h.flush hs.1, hs.2.flush⟩

end

end Sink

/-- A buffer with a limit that has taken some bytes. -/
structure Buffer.Holding (limit : Nat) (whenFull : WhenFull) (flushFailure : Option String)
    (buffer : Buffer) : Prop where
  size_le : buffer.written.size ≤ limit
  room : buffer.room = some (limit - buffer.written.size)
  whenFull : buffer.whenFull = whenFull
  flushFailure : buffer.flushFailure = flushFailure

/-- Buffers with a limit are limited sinks, whatever they do when they are full or flushed. -/
theorem Buffer.limited (limit : Nat) (whenFull : WhenFull) (flushFailure : Option String) :
    Sink.Limited limit fun bytes (buffer : Buffer) =>
      buffer.Holding limit whenFull flushFailure ∧ buffer.written.toList = bytes where
  length_le := by
    rintro bytes buffer ⟨hbuffer, rfl⟩
    exact hbuffer.size_le
  takes := by
    rintro bytes ⟨written, room, whenFull, flushFailure⟩ first rest ⟨⟨hsize, hroom, rfl, rfl⟩, rfl⟩ hlt
    replace hlt : written.size < limit := by simpa using hlt
    obtain ⟨left, rfl⟩ : ∃ left, limit = written.size + (left + 1) :=
      ⟨limit - written.size - 1, by omega⟩
    obtain rfl : room = some (left + 1) := by simpa using hroom
    -- of the bytes offered as many are taken as there is room for, which is one at least
    have hcount : min (first :: rest).length (left + 1) = min rest.length left + 1 :=
      Nat.add_min_add_right _ _ _
    have htake : (first :: rest).take (min rest.length left + 1) = (first :: rest).take (left + 1) := by
      rw [← hcount, List.take_eq_take_iff]
      omega
    have hwritten : (written ++ (first :: rest).take (left + 1)).size =
        written.size + (min rest.length left + 1) := by
      rw [← htake, ← Array.length_toList, Array.toList_appendList, List.length_append]
      simp
    have hroom' : left + 1 - (first :: rest).length =
        written.size + (left + 1) - (written.size + (min rest.length left + 1)) := by
      rw [List.length_cons]
      omega
    refine ⟨min rest.length left, ⟨written ++ (first :: rest).take (left + 1),
      some (left + 1 - (first :: rest).length), whenFull, flushFailure⟩, Nat.min_le_left _ _, ?_,
      ⟨?_, ?_, rfl, rfl⟩, ?_⟩
    · rw [← hcount]
      rfl
    · rw [hwritten]
      omega
    · rw [hwritten, hroom']
    · rw [htake, Array.toList_appendList]
  refuses := by
    rintro bytes ⟨written, room, whenFull, flushFailure⟩ first rest ⟨hbuffer, rfl⟩ hfull
    have hempty : limit - written.size = 0 := Nat.sub_eq_zero_of_le (Nat.le_of_eq hfull.symm)
    obtain rfl : room = some 0 := hbuffer.room.trans (congrArg some hempty)
    cases whenFull with
    | fail reason => exact ⟨Or.inl ⟨reason, rfl⟩, hbuffer, rfl⟩
    | takeNothing => exact ⟨Or.inr rfl, hbuffer, rfl⟩
  flush := by
    rintro bytes ⟨written, room, whenFull, flushFailure⟩ h
    cases flushFailure <;> exact h

namespace Screen

/-! ## Pieces -/

/-- Offers the pieces to a sink one after the other, without flushing it. -/
def offer (sink : σ) : List (List Byte) → Except String Unit × σ
  | [] => (.ok (), sink)
  | piece :: rest =>
    match Sink.writeAll sink piece with
    | (.ok _, sink) => offer sink rest
    | (.error reason, sink) => (.error reason, sink)

/-- The pieces are sent by offering them, and the sink is flushed if it has taken all of them. -/
theorem send_eq_offer (sink : σ) (pieces : List (List Byte)) :
    send sink pieces =
      match offer sink pieces with
      | (.ok _, sink) => Sink.flush sink
      | (.error reason, sink) => (.error reason, sink) := by
  induction pieces generalizing sink with
  | nil => rfl
  | cons piece pieces ih =>
    rw [send, offer]
    generalize Sink.writeAll sink piece = outcome
    obtain ⟨_ | _, sink'⟩ := outcome
    · rfl
    · exact ih sink'

end Screen

section

variable {limit : Nat} {holds : List Byte → σ → Prop} {bytes text : List Byte} {sink : σ}
  {screen : Screen σ}

theorem Sink.Limited.offer (h : Sink.Limited limit holds) (hs : holds bytes sink)
    (pieces : List (List Byte)) :
    Sink.Offered limit holds (bytes ++ pieces.flatten) (Screen.offer sink pieces) := by
  induction pieces generalizing bytes sink with
  | nil =>
    rw [List.flatten_nil, List.append_nil]
    exact .all (h.length_le hs) hs
  | cons piece pieces ih =>
    have hpiece := h.writeAll hs piece
    rw [Screen.offer, List.flatten_cons, ← List.append_assoc]
    generalize Sink.writeAll sink piece = outcome at hpiece
    obtain ⟨reason | _, sink'⟩ := outcome
    · exact hpiece.append_of_error _
    · cases hpiece with
      | all hle hs' => exact ih hs'

end

namespace Screen

/-- The text of a word is not empty. -/
theorem sent_writeWord_ne_nil (a value : Word) : sent a (.writeWord value) ≠ [] := by
  intro h
  have hmem : [escape, '['] ∈ rendering a value := by simp [rendering, cursorText]
  have hpiece : encode [escape, '['] = [] :=
    List.flatten_eq_nil_iff.mp h _ (List.mem_map.mpr ⟨_, hmem, rfl⟩)
  exact absurd hpiece (by decide)

/-- The pieces of the text of a word are offered to the sink. -/
def offered (screen : Screen σ) (a value : Word) : Except String Unit × σ :=
  offer screen.sink ((rendering a value).map encode)

/-- A word is written if its text was taken and the sink was flushed then. -/
theorem writeWord_eq_offered (screen : Screen σ) (a value : Word) :
    screen.writeWord a value =
      match screen.offered a value with
      | (.ok _, sink) => ((Sink.flush sink).1.mapError .deviceFailure, ⟨(Sink.flush sink).2⟩)
      | (.error reason, sink) => (.error (.deviceFailure reason), ⟨sink⟩) := by
  rw [writeWord, send_eq_offer, offered]
  generalize offer screen.sink ((rendering a value).map encode) = outcome
  obtain ⟨reason | _, sink⟩ := outcome
  · rfl
  · dsimp only
    generalize Sink.flush sink = flushed
    obtain ⟨_ | _, sink'⟩ := flushed <;> rfl

/-- The texts of the words that accesses write, one behind the other. -/
def stream (accesses : List (Word × Request)) : List Byte :=
  (wordWrites accesses).flatMap fun write => ((rendering write.1 write.2).map encode).flatten

theorem stream_cons (a : Word) (request : Request) (accesses : List (Word × Request)) :
    stream ((a, request) :: accesses) = sent a request ++ stream accesses := by
  rw [stream, stream, ← flatMap_sent_eq_flatMap_rendering, ← flatMap_sent_eq_flatMap_rendering,
    List.flatMap_cons]

theorem stream_append (first second : List (Word × Request)) :
    stream (first ++ second) = stream first ++ stream second := by
  rw [stream, wordWrites, List.filterMap_append, List.flatMap_append]
  rfl

theorem stream_append_singleton (accesses : List (Word × Request)) (a : Word) (request : Request) :
    stream (accesses ++ [(a, request)]) = stream accesses ++ sent a request := by
  rw [stream_append, stream_cons]
  exact congrArg _ (List.append_nil _)

end Screen

section

variable {limit : Nat} {holds : List Byte → σ → Prop} {text : List Byte} {screen : Screen σ}

/-- The text of a word is offered behind all that was sent before, however much of it was taken. -/
theorem Sink.Limited.offered (h : Sink.Limited limit holds) (hs : holds (text.take limit) screen.sink)
    (a value : Word) :
    Sink.Offered limit holds (text ++ Screen.sent a (.writeWord value)) (screen.offered a value) :=
  (h.offer hs _).of_take (Screen.sent_writeWord_ne_nil a value)

/-- An access extends what is sent. -/
theorem Sink.Limited.answer (h : Sink.Limited limit holds) (hs : holds (text.take limit) screen.sink)
    (a : Word) (request : Request) :
    holds ((text ++ Screen.sent a request).take limit) (Device.answer screen a request).2.sink := by
  cases request with
  | readByte | readWord | writeByte value =>
    rw [Screen.sent, List.append_nil]
    · exact hs
    all_goals exact nofun
  | writeWord value =>
    have hoffered := h.offered hs a value
    change holds _ (screen.writeWord a value).2.sink
    rw [Screen.writeWord_eq_offered]
    generalize screen.offered a value = outcome at hoffered
    cases hoffered with
    | all hle hs' => exact h.flush (Sink.Offered.all hle hs').holds_take
    | cut hlt hfull hrefuses hs' => exact hs'

/-- The sink has the beginning of all that was sent. -/
theorem Sink.Limited.after (h : Sink.Limited limit holds) (hs : holds (text.take limit) screen.sink)
    (accesses : List (Word × Request)) :
    holds ((text ++ Screen.stream accesses).take limit) (Device.after screen accesses).sink := by
  induction accesses generalizing text screen with
  | nil =>
    rw [show Screen.stream [] = [] from rfl, List.append_nil]
    exact hs
  | cons access accesses ih =>
    obtain ⟨a, request⟩ := access
    rw [Screen.stream_cons, ← List.append_assoc]
    exact ih (h.answer hs a request)

/-- A word is written only if there is room for its text. -/
theorem Sink.Limited.length_le_of_writeWord (h : Sink.Limited limit holds)
    (hs : holds (text.take limit) screen.sink) {a value : Word}
    (hok : (screen.writeWord a value).1 = .ok ()) :
    (text ++ Screen.sent a (.writeWord value)).length ≤ limit := by
  have hoffered := h.offered hs a value
  rw [Screen.writeWord_eq_offered] at hok
  generalize screen.offered a value = outcome at hoffered hok
  cases hoffered with
  | all hle hs' => exact hle
  | cut => cases hok

/-- Words are all written only if there is room for the texts of all of them. -/
theorem Sink.Limited.length_le_of_eval (h : Sink.Limited limit holds)
    (hs : holds (text.take limit) screen.sink) {accesses : List (Word × Request)}
    (hok : ((BusProgram.ofPlan accesses).eval screen).1 = .ok ())
    (hstream : Screen.stream accesses ≠ []) : (text ++ Screen.stream accesses).length ≤ limit := by
  induction accesses generalizing text screen with
  | nil => exact absurd rfl hstream
  | cons access accesses ih =>
    obtain ⟨a, request⟩ := access
    have hnext := h.answer hs a request
    rw [BusProgram.ofPlan, BusProgram.eval] at hok
    rw [Screen.stream_cons] at hstream
    rw [Screen.stream_cons, ← List.append_assoc]
    cases hanswer : Device.answer screen a request with
    | mk reply screen' =>
      rw [hanswer] at hok hnext
      obtain _ | reply := reply
      · cases hok
      · by_cases hrest : Screen.stream accesses = []
        · rw [hrest, List.append_nil] at hstream ⊢
          cases request with
          | writeWord value => exact h.length_le_of_writeWord hs (congrArg Prod.fst hanswer)
          | _ => exact absurd rfl hstream
        · exact ih hnext hok hrest

end

/-! ## Screens -/

namespace Screen

/-- What a screen sends to a sink with a limit, and how it answers. -/
structure LimitedStream (limit : Nat) (taken : σ → List Byte) (screen : Screen σ) : Prop where
  /-- whether accesses fail or not, the sink has the beginning of the texts of the words, as long as
      there is room -/
  beginning : ∀ accesses,
    taken (Device.after screen accesses).sink = (stream accesses).take limit
  /-- so it is while the pieces of a text are sent -/
  between : ∀ accesses a value k, let pieces := ((rendering a value).map encode).take k
    taken (offer (Device.after screen accesses).sink pieces).2 =
      (stream accesses ++ pieces.flatten).take limit
  /-- a word is written if there is room for its text behind all the others, and the sink can be
      flushed then -/
  succeeds : ∀ accesses a value,
    (Device.answer (Device.after screen accesses) a (.writeWord value)).1 = .ok () ↔
      (stream (accesses ++ [(a, .writeWord value)])).length ≤ limit ∧
        (Sink.flush ((Device.after screen accesses).offered a value).2).1 = .ok ()
  /-- without room the screen answers with the reason for which the full sink has refused a write -/
  refused : ∀ accesses a value, limit < (stream (accesses ++ [(a, .writeWord value)])).length →
    ∃ reason full,
      (Device.answer (Device.after screen accesses) a (.writeWord value)).1 =
        .error (.deviceFailure reason) ∧
      Sink.Reaches (Device.after screen accesses).sink full ∧
      taken full = (stream (accesses ++ [(a, .writeWord value)])).take limit ∧
      Sink.Refuses full reason
  /-- with room it answers with the reason for which the sink is not flushed, if there is one, and the
      sink has all of the text before -/
  flushed : ∀ accesses a value, (stream (accesses ++ [(a, .writeWord value)])).length ≤ limit →
    taken ((Device.after screen accesses).offered a value).2 =
        stream (accesses ++ [(a, .writeWord value)]) ∧
      ∀ reason, (Sink.flush ((Device.after screen accesses).offered a value).2).1 = .error reason →
        (Device.answer (Device.after screen accesses) a (.writeWord value)).1 =
          .error (.deviceFailure reason)

section

variable {limit : Nat} {sound : σ → Prop} {taken : σ → List Byte} {screen : Screen σ}
  (hlimited : Sink.Limited limit fun bytes sink => sound sink ∧ taken sink = bytes)
  (hsound : sound screen.sink) (hempty : taken screen.sink = [])

include hlimited hsound hempty

theorem after_limited (accesses : List (Word × Request)) :
    sound (Device.after screen accesses).sink ∧
      taken (Device.after screen accesses).sink = (stream accesses).take limit := by
  have hs : sound screen.sink ∧ taken screen.sink = ([] : List Byte).take limit :=
    ⟨hsound, hempty.trans List.take_nil.symm⟩
  exact hlimited.after hs accesses

theorem limitedStream : LimitedStream limit taken screen where
  beginning accesses := (after_limited hlimited hsound hempty accesses).2
  between accesses a value k := by
    have hafter := after_limited hlimited hsound hempty accesses
    have hholds := (hlimited.offer hafter (((rendering a value).map encode).take k)).holds_take
    rw [Sink.take_append_take] at hholds
    exact hholds.2
  succeeds accesses a value := by
    have hoffered := hlimited.offered (after_limited hlimited hsound hempty accesses) a value
    rw [stream_append_singleton]
    change ((Device.after screen accesses).writeWord a value).1 = _ ↔ _
    rw [writeWord_eq_offered]
    generalize (Device.after screen accesses).offered a value = outcome at hoffered
    cases hoffered with
    | @all sink hle hs =>
      rw [and_iff_right hle]
      dsimp only
      generalize (Sink.flush sink).1 = result
      obtain _ | _ := result <;> simp [Except.mapError]
    | cut hlt => exact ⟨nofun, fun h => absurd h.1 (Nat.not_le.mpr hlt)⟩
  refused accesses a value hlt := by
    have hafter := after_limited hlimited hsound hempty accesses
    have hoffered := (hlimited.reaching (Device.after screen accesses).sink).offered
      ⟨hafter, .refl⟩ a value
    rw [stream_append_singleton] at hlt ⊢
    change ∃ reason full, ((Device.after screen accesses).writeWord a value).1 = _ ∧ _
    rw [writeWord_eq_offered]
    generalize (Device.after screen accesses).offered a value = outcome at hoffered
    cases hoffered with
    | all hle => exact absurd hlt (Nat.not_lt.mpr hle)
    | @cut full sink reason _ hfull hrefuses hs =>
      exact ⟨reason, full, rfl, hfull.2, hfull.1.2, hrefuses⟩
  flushed accesses a value hle := by
    have hoffered := hlimited.offered (after_limited hlimited hsound hempty accesses) a value
    rw [stream_append_singleton] at hle ⊢
    change _ ∧ ∀ reason, _ → ((Device.after screen accesses).writeWord a value).1 = _
    rw [writeWord_eq_offered]
    generalize (Device.after screen accesses).offered a value = outcome at hoffered
    cases hoffered with
    | @all sink _ hs =>
      refine ⟨hs.2, fun reason hflush => ?_⟩
      dsimp only at hflush ⊢
      rw [hflush]
      rfl
    | cut hlt => exact absurd hlt (Nat.not_lt.mpr hle)

end

end Screen

/-! ## Machines -/

namespace Machine

section

variable {ε : Type} [Device ε] {limit : Nat} {taken : σ → List Byte}

/-- A machine has a screen in the place of a region, whose sink has taken some bytes. -/
def SinkHas (taken : σ → List Byte) (region : Region (ε ⊕ Screen σ)) (bytes : List Byte)
    (machine : Machine (ε ⊕ Screen σ)) : Prop :=
  ∃ screen : Screen σ, region.withDevice (.inr screen) ∈ machine.bus.regions ∧
    taken screen.sink = bytes

/-- The texts of the words that are written to a region in the first `n` steps, with those that it
    refuses. -/
def streamOf (machine : Machine (ε ⊕ Screen σ)) (region : Region (ε ⊕ Screen σ)) (n : Nat) :
    List Byte := Screen.stream (machine.delivered region.id n)

/-- What a machine sends to the sink of a screen in the place of a region. -/
structure LimitedOutput (limit : Nat) (taken : σ → List Byte) (region : Region (ε ⊕ Screen σ))
    (machine : Machine (ε ⊕ Screen σ)) : Prop where
  /-- after any number of steps the sink has the beginning of the texts, as long as there is room -/
  beginning : ∀ n,
    (machine.after n).SinkHas taken region ((machine.streamOf region n).take limit)
  /-- what it has taken stays there -/
  kept : ∀ n m, n ≤ m → ∀ bytes bytes', (machine.after n).SinkHas taken region bytes →
    (machine.after m).SinkHas taken region bytes' → bytes <+: bytes'
  /-- the words that an instruction stores, pushes or builds a frame of on the screen have reached the
      sink when the step returns, and it writes no other words -/
  arrived : ∀ n b i, (machine.after n).step.1 = .ok b → (machine.after n).instruction? = some i →
    let stored := Screen.stream
      (machine.bus.delivered region.id (i.plan ((machine.after n).core.advanced i.length)))
    machine.streamOf region (n + 1) = machine.streamOf region n ++ stored ∧
      (stored ≠ [] →
        (machine.after (n + 1)).SinkHas taken region (machine.streamOf region n ++ stored))
  /-- a step that fails takes back the registers, but nothing of what its accesses have sent, and sends
      nothing else -/
  failed : ∀ n fault, (machine.after n).step.1 = .error fault →
    (machine.after (n + 1)).core = (machine.after n).core ∧
      (machine.after (n + 1)).SinkHas taken region ((machine.streamOf region n ++
        Screen.stream (machine.bus.delivered region.id (machine.after n).accesses)).take limit)

variable {sound : σ → Prop} {machine : Machine (ε ⊕ Screen σ)} {region : Region (ε ⊕ Screen σ)}
  {screen : Screen σ}

omit [Sink σ] [Device ε] in
theorem SinkHas.unique {bytes bytes' : List Byte} (h : machine.SinkHas taken region bytes)
    (h' : machine.SinkHas taken region bytes') (hordered : machine.bus.Ordered) : bytes = bytes' := by
  obtain ⟨screen, hmem, rfl⟩ := h
  obtain ⟨screen', hmem', rfl⟩ := h'
  have heq := congrArg Region.device (hordered.decreasing.eq_of_id_eq hmem hmem' rfl)
  rw [Sum.inr.inj heq]

theorem streamOf_succ (machine : Machine (ε ⊕ Screen σ)) (region : Region (ε ⊕ Screen σ)) (n : Nat) :
    machine.streamOf region (n + 1) = machine.streamOf region n ++
      Screen.stream (machine.bus.delivered region.id (machine.after n).accesses) := by
  rw [streamOf, delivered_succ, Screen.stream_append]
  rfl

/-- What is sent later comes behind what was sent before. -/
theorem streamOf_isPrefix (machine : Machine (ε ⊕ Screen σ)) (region : Region (ε ⊕ Screen σ))
    {n m : Nat} (h : n ≤ m) : machine.streamOf region n <+: machine.streamOf region m := by
  induction h with
  | refl => exact List.prefix_rfl
  | step h ih =>
    rw [Nat.succ_eq_add_one, streamOf_succ]
    exact ih.trans (List.prefix_append _ _)

omit [Sink σ] [Device ε] in
theorem stream_of_reads (bus : Bus (ε ⊕ Screen σ)) (id : Nat) {accesses : List (Word × Request)}
    (h : ∀ access ∈ accesses, access.2.isWrite = false) :
    Screen.stream (bus.delivered id accesses) = [] := by
  have hnone : Screen.wordWrites (bus.delivered id accesses) = [] := by
    refine List.filterMap_eq_nil_iff.mpr fun access haccess => ?_
    obtain ⟨⟨a, request⟩, hmem, hlocal⟩ := List.mem_filterMap.mp haccess
    obtain ⟨b, -, rfl⟩ := Option.map_eq_some_iff.mp hlocal
    have hread : request.isWrite = false := h _ hmem
    cases request with
    | readByte | readWord => rfl
    | writeByte | writeWord => cases hread
  rw [Screen.stream, hnone, List.flatMap_nil]

section

variable
  (hlimited : Sink.Limited limit fun bytes sink => sound sink ∧ taken sink = bytes)
  (hsound : sound screen.sink) (hempty : taken screen.sink = []) (hordered : machine.bus.Ordered)
  (hregion : region ∈ machine.bus.regions) (hdevice : region.device = .inr screen)

include hordered hregion hdevice in
/-- The screen after a number of steps is what its accesses have made of it. -/
theorem mem_after_of_screen (n : Nat) :
    (machine.after n).bus.Ordered ∧
      region.withDevice (.inr (Device.after screen (machine.delivered region.id n))) ∈
        (machine.after n).bus.regions := by
  have hafter := mem_after hordered hregion n
  rw [hdevice, Device.after_inr] at hafter
  exact hafter

include hlimited hsound hempty hordered hregion hdevice

theorem sinkHas_after (n : Nat) :
    (machine.after n).SinkHas taken region ((machine.streamOf region n).take limit) :=
  ⟨_, (mem_after_of_screen hordered hregion hdevice n).2,
    (Screen.after_limited hlimited hsound hempty _).2⟩

/-- A step that succeeds has sent all that it sends. -/
theorem length_le_of_step {n : Nat} {b : Bool} (hok : (machine.after n).step.1 = .ok b)
    (hstream : Screen.stream (machine.bus.delivered region.id (machine.after n).accesses) ≠ []) :
    (machine.streamOf region (n + 1)).length ≤ limit := by
  obtain ⟨hordered', hmem⟩ := mem_after_of_screen hordered hregion hdevice n
  have heval := eval_delivered_of_step hordered' hmem hok
  rw [Region.id_withDevice, Region.device_withDevice, Bus.delivered_congr (machine.owner_after n),
    BusProgram.eval_inr] at heval
  have hs := Screen.after_limited hlimited hsound hempty (machine.delivered region.id n)
  rw [streamOf_succ]
  exact hlimited.length_le_of_eval hs heval hstream

theorem limitedOutput : machine.LimitedOutput limit taken region where
  beginning := sinkHas_after hlimited hsound hempty hordered hregion hdevice
  kept n m hle bytes bytes' h h' := by
    have hafter := sinkHas_after hlimited hsound hempty hordered hregion hdevice
    have hn := (mem_after_of_screen hordered hregion hdevice n).1
    have hm := (mem_after_of_screen hordered hregion hdevice m).1
    rw [h.unique (hafter n) hn, h'.unique (hafter m) hm]
    exact (machine.streamOf_isPrefix region hle).take limit
  arrived n b i hok hi := by
    obtain ⟨reads, hreads, haccesses⟩ := exists_reads_of_step hi hok
    have hsucc := machine.streamOf_succ region n
    have hlength := @length_le_of_step _ _ _ _ _ _ _ _ _ _ hlimited hsound hempty hordered hregion
      hdevice n b hok
    rw [haccesses, Bus.delivered_append, Screen.stream_append, stream_of_reads _ _ hreads,
      List.nil_append] at hsucc hlength
    refine ⟨hsucc, fun hstored => ?_⟩
    have hafter := sinkHas_after hlimited hsound hempty hordered hregion hdevice (n + 1)
    rw [List.take_of_length_le (hlength hstored), hsucc] at hafter
    exact hafter
  failed n fault hfault := by
    have hafter := sinkHas_after hlimited hsound hempty hordered hregion hdevice (n + 1)
    rw [streamOf_succ] at hafter
    exact ⟨(core_of_step_eq_error hfault).1, hafter⟩

end

end

end Machine

/-- A limited sink has the beginning of what the screen sends to it, and a machine sends to it what its
    instructions write to the screen. -/
theorem Screen.sends_beginning {limit : Nat} {sound : σ → Prop} {taken : σ → List Byte}
    {screen : Screen σ}
    (hlimited : Sink.Limited limit fun bytes sink => sound sink ∧ taken sink = bytes)
    (hsound : sound screen.sink) (hempty : taken screen.sink = []) :
    Screen.LimitedStream limit taken screen ∧
      ∀ {ε : Type} [Device ε] (machine : Machine (ε ⊕ Screen σ)) (region : Region (ε ⊕ Screen σ)),
        machine.bus.Ordered → region ∈ machine.bus.regions → region.device = .inr screen →
          machine.LimitedOutput limit taken region :=
  ⟨limitedStream hlimited hsound hempty, fun _ _ hordered hregion hdevice =>
    Machine.limitedOutput hlimited hsound hempty hordered hregion hdevice⟩

theorem Bus.ordered_covered {ε : Type} (ram : Ram) (cover : ε) : (covered ram cover).Ordered :=
  (ordered_empty.map (Sum.inl ram) 0x0000 0xffff true).map (Sum.inr cover) 0x3000 0x30ff true

/-- A buffer with room for fifteen bytes. -/
def Buffer.fifteen : Buffer := ⟨#[], some 15, .fail "full", none⟩

/-- A machine that stores two words on a screen, each of which is drawn in eleven bytes. -/
def Machine.twoWords : Machine (Ram ⊕ Screen Buffer) :=
  ⟨.initial, Bus.covered ⟨#[0x1b, 0x01, 0x48, 0x30, 0x00, 0x1b, 0x01, 0x48, 0x30, 0x01]⟩
    ⟨.fifteen⟩, false, #[]⟩

theorem Machine.sinkHas_twoWords :
    (twoWords.after 1).step.1 = .error (.deviceFailure "full") ∧
      (twoWords.after 2).SinkHas (fun buffer => buffer.written.toList) (Bus.page ⟨.fifteen⟩)
        (Screen.encode "\x1b[1m\x1b[1;2HH\x1b[1m".toList) := by
  have houtput : twoWords.LimitedOutput 15 (fun buffer => buffer.written.toList) _ :=
    (Screen.sends_beginning (Buffer.limited 15 (.fail "full") none) ⟨by decide, rfl, rfl, rfl⟩ rfl).2
      twoWords (Bus.page ⟨.fifteen⟩) (Bus.ordered_covered _ _) List.mem_cons_self rfl
  have hfault : (twoWords.after 1).step.1 = .error (.deviceFailure "full") := by decide +kernel
  have hstream : (twoWords.streamOf (Bus.page ⟨.fifteen⟩) 2).take 15 =
      Screen.encode "\x1b[1m\x1b[1;2HH\x1b[1m".toList := by decide +kernel
  exact ⟨hfault, hstream ▸ houtput.beginning 2⟩

end WordMachine
