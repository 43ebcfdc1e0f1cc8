import WordMachine.Proofs.Shadowing
import WordMachine.Proofs.WriteOrder

/-!
# Faults of a machine with memory everywhere

The machine that the command line builds has memory at all addresses, and perhaps a screen over a page
of it. If the sink of the screen takes what it is sent, an access fails only if it is about a word at
the last address, whose second byte is behind the end of the memory. The other faults of a step are
those that instructions raise themselves: an indexed load, a pop and a return compute an address that
may be past the end of the address space.

* `Sink.Accepts.screen`: a screen sends all that it draws to a sink that does not fail.
* `Backed.ending_of_mem_trace`: how each access of a program on such a bus ends.
* `perform_raises`: the faults that an instruction raises itself.
* `fault_of_step`: all faults of a step, and the opcodes that never fail.
-/

namespace WordMachine

variable {α β σ : Type}

/-! ## Sinks that do not fail -/

/-- The sinks of a set take a part of what they are offered, can be flushed, and are in the set
    then. -/
structure Sink.Steady [Sink σ] (steady : σ → Prop) : Prop where
  write : ∀ {sink : σ} (first : Byte) (rest : List Byte), steady sink →
    ∃ taken sink', Sink.write sink (first :: rest) = (.ok (taken + 1), sink') ∧ steady sink'
  flush : ∀ {sink : σ}, steady sink → ∃ sink', Sink.flush sink = (.ok (), sink') ∧ steady sink'

/-- The sinks of a family do not fail either, and each of them is there with all bytes that it has
    taken. -/
structure Sink.Accepts [Sink σ] (holds : List Byte → σ → Prop) : Prop where
  write : ∀ {bytes : List Byte} {sink : σ} (first : Byte) (rest : List Byte), holds bytes sink →
    ∃ taken sink', Sink.write sink (first :: rest) = (.ok (taken + 1), sink') ∧
      holds (bytes ++ (first :: rest).take (taken + 1)) sink'
  flush : ∀ {bytes : List Byte} {sink : σ}, holds bytes sink →
    ∃ sink', Sink.flush sink = (.ok (), sink') ∧ holds bytes sink'

/-- Buffers without a limit whose flushing does not fail are steady. -/
theorem Buffer.steady :
    Sink.Steady fun buffer : Buffer => buffer.room = none ∧ buffer.flushFailure = none where
  write {buffer} first rest h := by
    obtain ⟨written, room, whenFull, flushFailure⟩ := buffer
    obtain ⟨rfl, rfl⟩ := h
    exact ⟨rest.length, _, rfl, rfl, rfl⟩
  flush {buffer} h := by
    obtain ⟨written, room, whenFull, flushFailure⟩ := buffer
    obtain ⟨rfl, rfl⟩ := h
    exact ⟨_, rfl, rfl, rfl⟩

/-- What a request to a screen sends to its sink. -/
def Screen.sent (a : Word) : Request → List Byte
  | .writeWord value => ((Screen.rendering a value).map Screen.encode).flatten
  | _ => []

section

variable [Sink σ] {holds : List Byte → σ → Prop} {bytes : List Byte} {sink : σ}

/-- Bytes are offered until all of them are taken, in however many parts. -/
theorem Sink.Accepts.writeAll (h : Sink.Accepts holds) (hs : holds bytes sink) (piece : List Byte) :
    ∃ sink', Sink.writeAll sink piece = (.ok (), sink') ∧ holds (bytes ++ piece) sink' := by
  induction sink, piece using Sink.writeAll.induct generalizing bytes with
  | case1 sink => exact ⟨sink, by rw [Sink.writeAll], by rwa [List.append_nil]⟩
  | case2 sink first rest reason sink₁ heq =>
    obtain ⟨taken, sink', hwrite, -⟩ := h.write first rest hs
    rw [heq] at hwrite
    cases hwrite
  | case3 sink first rest sink₁ heq =>
    obtain ⟨taken, sink', hwrite, -⟩ := h.write first rest hs
    rw [heq] at hwrite
    cases hwrite
  | case4 sink first rest taken sink₁ heq ih =>
    obtain ⟨taken', sink', hwrite, hs'⟩ := h.write first rest hs
    rw [heq] at hwrite
    cases hwrite
    obtain ⟨sink', hrest, hs''⟩ := ih hs'
    rw [List.take_succ_cons, List.append_assoc, List.cons_append, List.take_append_drop] at hs''
    exact ⟨sink', by rw [Sink.writeAll, heq]; exact hrest, hs''⟩

theorem Sink.Accepts.send (h : Sink.Accepts holds) (hs : holds bytes sink)
    (pieces : List (List Byte)) :
    ∃ sink', Screen.send sink pieces = (.ok (), sink') ∧ holds (bytes ++ pieces.flatten) sink' := by
  induction pieces generalizing bytes sink with
  | nil =>
    rw [List.flatten_nil, List.append_nil]
    exact h.flush hs
  | cons piece pieces ih =>
    obtain ⟨sink₁, hwrite, hs₁⟩ := h.writeAll hs piece
    rw [Screen.send, hwrite, List.flatten_cons, ← List.append_assoc]
    exact ih hs₁

/-- A screen whose sink does not fail answers whatever it is asked. -/
theorem Sink.Accepts.screen (h : Sink.Accepts holds) (hs : holds bytes sink) (a : Word)
    (request : Request) :
    ∃ reply sink', Device.answer (⟨sink⟩ : Screen σ) a request = (.ok reply, ⟨sink'⟩) ∧
      holds (bytes ++ Screen.sent a request) sink' := by
  have hnothing : holds (bytes ++ []) sink := by rwa [List.append_nil]
  cases request with
  | readByte | readWord => exact ⟨0, sink, rfl, hnothing⟩
  | writeByte value => exact ⟨(), sink, rfl, hnothing⟩
  | writeWord value =>
    obtain ⟨sink', hsend, hs'⟩ := h.send hs ((Screen.rendering a value).map Screen.encode)
    refine ⟨(), sink', ?_, hs'⟩
    change Screen.writeWord ⟨sink⟩ a value = _
    rw [Screen.writeWord, hsend]

theorem Sink.Steady.accepts {steady : σ → Prop} (h : Sink.Steady steady) :
    Sink.Accepts fun _ sink => steady sink where
  write := h.write
  flush := h.flush

theorem Sink.Steady.screen {steady : σ → Prop} (h : Sink.Steady steady) (hs : steady sink)
    (a : Word) (request : Request) :
    ∃ reply sink', Device.answer (⟨sink⟩ : Screen σ) a request = (.ok reply, ⟨sink'⟩) ∧
      steady sink' :=
  @Sink.Accepts.screen _ _ _ [] sink h.accepts hs a request

end

/-! ## Memory everywhere -/

namespace Bus

/-- A bus with memory over the whole address space, alone or under a screen with a given sink. -/
inductive Backed (steady : σ → Prop) : Bus (Ram ⊕ Screen σ) → Prop
  | alone {ram : Ram} (hsize : ram.size = addressSpace) : Backed steady ⟨[whole ram], 1⟩
  | covered {ram : Ram} {sink : σ} (hsize : ram.size = addressSpace) (hsink : steady sink) :
      Backed steady (covered ram ⟨sink⟩)

theorem alone_answer {ε : Type} [Device ε] {ram : Ram} (a : Word) (request : Request) :
    (⟨[whole ram], 1⟩ : Bus (Ram ⊕ ε)).answer a request =
      ((Device.answer ram a request).1, ⟨[whole (Device.answer ram a request).2], 1⟩) := by
  have hregions : (⟨[whole ram], 1⟩ : Bus (Ram ⊕ ε)).regions = [] ++ whole ram :: [] := rfl
  have hlocal : (whole ram : Region (Ram ⊕ ε)).localAddress a = a := UInt16.sub_zero a
  rw [answer_of_split hregions (fun r hr => nomatch hr) (contains_whole ram a), hlocal]
  rfl

/-- How an access ends if there is memory everywhere. -/
def backedEnding (a : Word) (request : Request) : Except Fault Unit :=
  if a = 0xffff ∧ request.width = 2 then .error (.outOfBounds 0xffff addressSpace) else .ok ()

theorem ending_of_size {ram : Ram} (hsize : ram.size = addressSpace) (a : Word)
    (request : Request) : Device.ending ram a request = backedEnding a request := by
  unfold backedEnding
  split
  next h =>
    obtain ⟨rfl, hwidth⟩ := h
    rw [Device.ending, Ram.answer_of_not_le (by rw [hsize, hwidth]; decide), hsize]
    rfl
  next h =>
    have hlt := a.toNat_lt
    have hlast : a = 0xffff ↔ a.toNat = 0xffff := UInt16.toNat_inj.symm
    have hwidth : request.width = 1 ∨ request.width = 2 := by
      cases request <;> simp [Request.width]
    rw [hlast] at h
    refine Ram.ending_of_le ?_
    rw [hsize, show addressSpace = 0x10000 from rfl]
    omega

variable [Sink σ] {steady : σ → Prop} {bus : Bus (Ram ⊕ Screen σ)}

theorem Backed.answer (hsteady : Sink.Steady steady) (h : Backed steady bus) (a : Word)
    (request : Request) :
    Device.ending bus a request = backedEnding a request ∧
      Backed steady (bus.answer a request).2 := by
  cases h with
  | @alone ram hsize =>
    rw [alone_answer]
    refine ⟨?_, .alone ((Ram.size_answer ram a request).trans hsize)⟩
    rw [← ending_of_size hsize, Device.ending, Device.ending]
    change ((Bus.answer _ a request).1).map _ = _
    rw [alone_answer]
  | @covered ram sink hsize hsink =>
    by_cases ha : OnScreen a
    · obtain ⟨reply, sink', hanswer, hsink'⟩ := hsteady.screen hsink (a - 0x3000) request
      rw [covered_answer_of_onScreen ha, hanswer]
      refine ⟨?_, .covered hsize hsink'⟩
      have hne : a ≠ 0xffff := by
        rintro rfl
        exact absurd ha (by decide)
      rw [backedEnding, if_neg fun h => hne h.1, Device.ending]
      change ((Bus.answer _ a request).1).map _ = _
      rw [covered_answer_of_onScreen ha, hanswer]
      rfl
    · rw [covered_answer ha]
      refine ⟨?_, .covered ((Ram.size_answer ram a request).trans hsize) hsink⟩
      rw [← ending_of_size hsize, Device.ending, Device.ending]
      change ((Bus.answer _ a request).1).map _ = _
      rw [covered_answer ha]

/-- How the accesses of a program end if there is memory everywhere. -/
theorem Backed.ending_of_mem_trace (hsteady : Sink.Steady steady) (h : Backed steady bus)
    {p : BusProgram α} {event : Event} (hevent : event ∈ p.trace bus) :
    event.ending = backedEnding event.address event.request :=
  BusProgram.ending_of_mem_trace (fun _ h => h.answer hsteady) h hevent

theorem error_of_backedEnding {a : Word} {request : Request} {fault : Fault}
    (h : backedEnding a request = .error fault) :
    a = 0xffff ∧ request.width = 2 ∧ fault = .outOfBounds 0xffff addressSpace := by
  unfold backedEnding at h
  split at h
  next hlast =>
    cases h
    exact ⟨hlast.1, hlast.2, rfl⟩
  next => cases h

end Bus

/-! ## Faults of the instructions themselves -/

namespace Microcode

/-- Of the faults that microcode raises itself `post` holds. -/
def Raises (post : Fault → Prop) (code : Microcode α) : Prop := ∀ core, (code core).Raises post

theorem Raises.bind {post : Fault → Prop} {code : Microcode α} {next : α → Microcode β}
    (hc : code.Raises post) (hn : ∀ a, (next a).Raises post) : (code >>= next).Raises post :=
  fun core => (hc core).bind fun r => hn r.1 r.2

theorem raises_get {post : Fault → Prop} (r : Register) : (get r).Raises post := fun _ => trivial

theorem raises_set {post : Fault → Prop} (r : Register) (word : Word) : (set r word).Raises post :=
  fun _ => trivial

theorem raises_log {post : Fault → Prop} (entry : LogEntry) : (log entry).Raises post :=
  fun _ => trivial

theorem raises_setFrameSize {post : Fault → Prop} (size : Word) :
    (setFrameSize size).Raises post := fun _ => trivial

theorem raises_forM {post : Fault → Prop} {l : List α} {body : α → Microcode Unit}
    (h : ∀ a, (body a).Raises post) : (l.forM body).Raises post := by
  induction l with
  | nil => exact fun _ => trivial
  | cons a l ih => exact (h a).bind fun _ => ih

/-- The faults of a pop: the stack pointer is at the last two addresses. -/
def AtStackEnd (fault : Fault) : Prop :=
  fault = .addressOverflow 0x10000 ∨ fault = .addressOverflow 0x10001

theorem error_of_effectiveAddress {base offset : Word} {fault : Fault}
    (h : effectiveAddress base offset = .error fault) :
    fault = .addressOverflow (base.toNat + offset.toNat) ∧
      0x10000 ≤ base.toNat + offset.toNat ∧ base.toNat + offset.toNat ≤ 0x1fffe := by
  have hbase := base.toNat_lt
  have hoffset := offset.toNat_lt
  unfold effectiveAddress at h
  split at h
  next => cases h
  next hle =>
    cases h
    exact ⟨rfl, by omega, by omega⟩

theorem pop_raises : pop.Raises AtStackEnd := by
  intro core
  change BusProgram.Raises _ ((check core.popped core).bind _)
  rw [Core.popped]
  cases h : effectiveAddress (core.get .sp) 2 with
  | ok top => exact fun _ => trivial
  | error fault =>
    obtain ⟨rfl, hlow, -⟩ := error_of_effectiveAddress h
    have hsp := (core.get .sp).toNat_lt
    have htwo : (2 : Word).toNat = 2 := rfl
    change Fault.addressOverflow _ = _ ∨ Fault.addressOverflow _ = _
    rw [Fault.addressOverflow.injEq, Fault.addressOverflow.injEq]
    omega

theorem drop_raises : ∀ n, (drop n).Raises AtStackEnd
  | 0 => fun _ => trivial
  | n + 1 => pop_raises.bind fun _ => drop_raises n

theorem leave_raises : leave.Raises AtStackEnd :=
  (raises_get .fp).bind fun fp => (raises_set .sp fp).bind fun _ =>
    pop_raises.bind fun size => (raises_setFrameSize size).bind fun _ =>
      pop_raises.bind fun ip => (raises_set .ip ip).bind fun _ =>
        (raises_forM fun r => pop_raises.bind fun word => raises_set r word).bind fun _ =>
          pop_raises.bind fun count => (drop_raises count.toNat).bind fun _ =>
            raises_set .fp (fp + size)

/-- The faults that an instruction raises itself on a core. -/
inductive Overflow (core : Core) : Instruction → Fault → Prop
  | loadIndexed {base : Word} {offset target : Register} {fault : Fault}
      (h : effectiveAddress base (core.get offset) = .error fault) :
      Overflow core (.loadIndexed base offset target) fault
  | pop {target : Register} {fault : Fault} (h : AtStackEnd fault) :
      Overflow core (.pop target) fault
  | ret {fault : Fault} (h : AtStackEnd fault) : Overflow core .ret fault

/-- An instruction fails by itself only if it computes an address past the end. -/
theorem perform_raises (address : Word) (i : Instruction) (core : Core) :
    (perform address i core).Raises (Overflow core i) := by
  cases hi : i.loads with
  | false => exact (perform_makes hi address core).raises.mono fun _ h => h.elim
  | true =>
    cases i with
    | load source target => exact fun _ => trivial
    | loadIndirect pointer target => exact fun _ => trivial
    | loadIndexed base offset target =>
      change BusProgram.Raises _ ((check (effectiveAddress base (core.get offset)) core).bind _)
      cases h : effectiveAddress base (core.get offset) with
      | ok source => exact fun _ => trivial
      | error fault => exact .loadIndexed h
    | pop target =>
      exact (pop_raises.bind (fun word => raises_set target word) core).mono fun _ => .pop
    | ret =>
      exact (leave_raises.bind (fun _ => (raises_get .ip).bind fun ip => raises_log (.returned ip))
        core).mono fun _ => .ret
    | _ => cases hi

end Microcode

/-! ## Opcodes without words -/

/-- Whether the instructions with an opcode access single bytes only, and do not pop. -/
def Opcode.wordFree : Opcode → Bool
  | move source => source == .register
  | arithmetic _ first => first == .register
  | unary _ => true
  | shift _ _ => true
  | bitwise _ second => second == .register
  | halt => true
  | unknown _ => true
  | _ => false

theorem Opcode.word_notMem_format {op : Opcode} (hop : op.wordFree = true) :
    Field.word ∉ op.format := by
  cases op with
  | move source | arithmetic _ source | bitwise _ source =>
    obtain rfl : source = .register := eq_of_beq hop
    simp
  | shift _ source => cases source <;> simp
  | unary _ | halt | unknown _ => simp
  | _ => cases hop

theorem Opcode.readByte_of_mem_fetches {op : Opcode} (hop : op.wordFree = true) {address : Word}
    {access : Word × Request} (h : access ∈ op.fetches address) : access.2 = .readByte := by
  rcases List.mem_cons.mp h with rfl | h
  · rfl
  · obtain ⟨field, hmem, heq⟩ := Format.exists_field_of_mem_reads h
    rw [heq]
    cases field with
    | register => rfl
    | byte => rfl
    | word => exact absurd hmem (word_notMem_format hop)

/-- What is left to do of these instructions needs no device. -/
theorem Instruction.plan_of_wordFree {i : Instruction} (hi : i.opcode.wordFree = true) (core : Core) :
    i.loads = false ∧ i.plan core = [] := by
  cases i with
  | store | load | loadIndirect | loadIndexed | literalMinus | jump | push | pop | call | ret =>
    cases hi
  | _ => exact ⟨rfl, rfl⟩

namespace Machine

variable [Sink σ] {steady : σ → Prop} {machine : Machine (Ram ⊕ Screen σ)}

/-- Why a step may fail if there is memory everywhere. -/
inductive Explained (machine : Machine (Ram ⊕ Screen σ)) : Fault → Prop
  /-- the step has accessed the word at the last address -/
  | lastWord {event : Event} (hmem : event ∈ machine.trace) (haddress : event.address = 0xffff)
      (hwidth : event.request.width = 2)
      (hending : event.ending = .error (.outOfBounds 0xffff 0x10000)) :
      Explained machine (.outOfBounds 0xffff 0x10000)
  /-- the address of an indexed load is past the end -/
  | indexed {base : Word} {offset target : Register} {x : Nat}
      (hi : machine.instruction? = some (.loadIndexed base offset target))
      (hx : x = base.toNat + ((machine.core.advanced 5).get offset).toNat)
      (hlow : 0x10000 ≤ x) (hhigh : x ≤ 0x1fffe) : Explained machine (.addressOverflow x)
  /-- a pop or a return begins at the end of the stack -/
  | stackEnd {i : Instruction} {x : Nat} (hi : machine.instruction? = some i)
      (hkind : (∃ target, i = .pop target) ∨ i = .ret) (hx : x = 0x10000 ∨ x = 0x10001) :
      Explained machine (.addressOverflow x)

section

variable (hsteady : Sink.Steady steady) (hbacked : Bus.Backed steady machine.bus)

include hsteady hbacked

theorem ending_of_mem_trace {event : Event} (h : event ∈ machine.trace) :
    event.ending = Bus.backedEnding event.address event.request := by
  cases hm : machine.halted with
  | true =>
    rw [trace, if_pos hm] at h
    cases h
  | false =>
    rw [trace_of_not_halted hm] at h
    exact hbacked.ending_of_mem_trace hsteady h

/-- A fault of an access is explained by it. -/
theorem explained_of_mem_trace {event : Event} {fault : Fault} (h : event ∈ machine.trace)
    (hending : event.ending = .error fault) : machine.Explained fault := by
  obtain ⟨haddress, hwidth, rfl⟩ := Bus.error_of_backedEnding
    ((ending_of_mem_trace hsteady hbacked h).symm.trans hending)
  exact .lastWord h haddress hwidth hending

theorem explained_of_step_eq_error {fault : Fault} (h : machine.step.1 = .error fault) :
    machine.Explained fault := by
  have hm := halted_of_step_eq_error h
  cases hi : machine.instruction? with
  | none =>
    obtain ⟨op, fault', -, hstep, hfollows⟩ := follows_of_instruction?_eq_none hm hi
    obtain rfl : fault = fault' := Except.error.inj (h.symm.trans hstep)
    obtain ⟨address, request, -, hmem⟩ := hfollows.exists_failed
    exact explained_of_mem_trace hsteady hbacked hmem rfl
  | some i =>
    obtain ⟨bus, fetched, -, htrace, hstep⟩ := split_of_instruction?_eq_some hi
    have hperform := map_eq_error_iff.mp (hstep.symm.trans h)
    have hraises := Microcode.perform_raises (machine.core.get .ip) i
      (machine.core.advanced i.length)
    rcases hraises.of_eval_eq_error (Prod.ext hperform rfl) with hover | ⟨event, hmem, hending⟩
    · cases hover with
      | @loadIndexed base offset target _ heff =>
        obtain ⟨rfl, hlow, hhigh⟩ := Microcode.error_of_effectiveAddress heff
        exact .indexed hi rfl hlow hhigh
      | @pop target _ hend =>
        rcases hend with rfl | rfl
        · exact .stackEnd hi (Or.inl ⟨target, rfl⟩) (Or.inl rfl)
        · exact .stackEnd hi (Or.inl ⟨target, rfl⟩) (Or.inr rfl)
      | ret hend =>
        rcases hend with rfl | rfl
        · exact .stackEnd hi (Or.inr rfl) (Or.inl rfl)
        · exact .stackEnd hi (Or.inr rfl) (Or.inr rfl)
    · refine explained_of_mem_trace hsteady hbacked ?_ hending
      rw [htrace]
      exact List.mem_append_right _ hmem

/-- An instruction without words reads its bytes, and that is all it asks of the bus. -/
theorem step_of_wordFree {op : Opcode} (hop : machine.opcode? = some op)
    (hfree : op.wordFree = true) :
    (∃ b, machine.step.1 = .ok b) ∧ ∀ event ∈ machine.trace, event.request = .readByte := by
  cases hi : machine.instruction? with
  | none =>
    obtain ⟨op', fault, hop', -, hfollows⟩ :=
      follows_of_instruction?_eq_none (halted_of_opcode? hop) hi
    obtain rfl : op = op' := by
      rw [hop] at hop'
      simpa using hop'
    -- a byte could not be read, which cannot be
    obtain ⟨address, request, hplan, hmem⟩ := hfollows.exists_failed
    obtain rfl : request = .readByte := Opcode.readByte_of_mem_fetches hfree hplan
    obtain ⟨-, hwidth, -⟩ := Bus.error_of_backedEnding
      (ending_of_mem_trace hsteady hbacked hmem).symm
    cases hwidth
  | some i =>
    obtain rfl : op = i.opcode := Option.some.inj (hop.symm.trans (opcode?_of_instruction? hi))
    obtain ⟨bus, fetched, hfetched, htrace, hstep⟩ := split_of_instruction?_eq_some hi
    obtain ⟨hloads, hplan⟩ :=
      Instruction.plan_of_wordFree hfree (machine.core.advanced i.length)
    have hrest := (Microcode.perform_makes hloads (machine.core.get .ip)
      (machine.core.advanced i.length)).follows bus
    rw [hplan] at hrest
    obtain ⟨hnil, hok⟩ := hrest.of_nil
    constructor
    · rw [hstep]
      generalize (Microcode.perform _ _ _).eval bus = outcome at hok
      obtain ⟨_ | _, bus'⟩ := outcome
      · cases hok
      · exact ⟨_, rfl⟩
    · intro event hevent
      rw [htrace, hnil, List.append_nil] at hevent
      exact Opcode.readByte_of_mem_fetches hfree (hfetched.mem_plan hevent)

end

/-- The faults of a machine with memory everywhere. -/
theorem fault_of_step (hsteady : Sink.Steady steady) (hbacked : Bus.Backed steady machine.bus) :
    (∀ fault, machine.step.1 = .error fault → machine.Explained fault) ∧
      ∀ op, machine.opcode? = some op → op.wordFree = true →
        (∃ b, machine.step.1 = .ok b) ∧ ∀ event ∈ machine.trace, event.request = .readByte :=
  ⟨fun _ => explained_of_step_eq_error hsteady hbacked,
    fun _ => step_of_wordFree hsteady hbacked⟩

/-- A pop fails if there is nothing on the stack, whichever register it names. -/
theorem step_of_pop {δ : Type} [Device δ] {machine : Machine δ} {byte : Byte}
    (hm : machine.halted = false)
    (hopcode : machine.bus.answer (machine.core.get .ip) .readByte = (.ok 0x1a, machine.bus))
    (htarget : machine.bus.answer (machine.core.get .ip + 1) .readByte = (.ok byte, machine.bus))
    (hsp : machine.core.get .sp = 0xfffe) :
    machine.step.1 = .error (.addressOverflow 0x10000) := by
  have hnext : (machine.core.advanced 1).get .ip = machine.core.get .ip + 1 := by
    rw [Core.get_advanced, if_pos rfl]
  have hfetch : Microcode.fetchInstruction.Completes machine.core machine.bus
      (.pop (.ofByte byte)) (machine.core.advanced 2) machine.bus := by
    refine Microcode.completes_bind.mpr ⟨0x1a, machine.core.advanced 1, machine.bus,
      Microcode.fetchByte_completes_iff.mpr ⟨hopcode, rfl⟩, ?_⟩
    exact Microcode.completes_bind.mpr ⟨.ofByte byte, machine.core.advanced 2, machine.bus,
      Microcode.completes_map.mpr ⟨byte, Microcode.fetchByte_completes_iff.mpr
        ⟨hnext ▸ htarget, by rw [Core.advanced_advanced]; rfl⟩, rfl⟩,
      Microcode.completes_pure.mpr ⟨rfl, rfl, rfl⟩⟩
  have hempty : (machine.core.advanced 2).popped = .error (.addressOverflow 0x10000) := by
    rw [Core.popped, Core.get_advanced, if_neg (by decide), hsp]
    rfl
  rw [result_of_fetch hm hfetch]
  change (BusProgram.eval (((Microcode.check (machine.core.advanced 2).popped
    (machine.core.advanced 2)).bind _).bind _) _).1.map _ = _
  rw [hempty]
  rfl

/-- The machine that the command line builds has memory everywhere. -/
theorem backed_build {memory : Ram} (h : memory.size = Bus.addressSpace) (screen : Bool) :
    Bus.Backed (fun buffer : Buffer => buffer.room = none ∧ buffer.flushFailure = none)
      (CommandLine.build memory screen).bus := by
  cases screen with
  | false => exact .alone h
  | true => exact .covered h ⟨rfl, rfl⟩

/-- Memory full of the opcode of a pop, under a screen. -/
def onlyPops : Machine CommandLine.Peripheral :=
  CommandLine.build ⟨Array.replicate Bus.addressSpace 0x1a⟩ true

theorem onlyPops_answer {a : Word} (ha : ¬Bus.OnScreen a) :
    Device.answer onlyPops.bus a .readByte = (.ok 0x1a, onlyPops.bus) := by
  refine Bus.covered_readByte ha ?_
  rw [Array.getElem?_replicate]
  exact if_pos a.toNat_lt

theorem onlyPops_step : onlyPops.step.1 = .error (.addressOverflow 0x10000) :=
  step_of_pop rfl (onlyPops_answer (by decide)) (onlyPops_answer (by decide)) rfl

theorem explained_onlyPops :
    onlyPops.step.1 = .error (.addressOverflow 0x10000) ∧
      onlyPops.Explained (.addressOverflow 0x10000) :=
  ⟨onlyPops_step, (fault_of_step Buffer.steady (backed_build Array.size_replicate true)).1 _
    onlyPops_step⟩

end Machine

end WordMachine
