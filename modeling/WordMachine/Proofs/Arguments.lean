import WordMachine.Proofs.NestedCalls
import WordMachine.Proofs.Rollback

/-!
# Arguments

A caller pushes the arguments of a subroutine and then their number, and calls. On a bus of
random-access memories all of this succeeds if the words on the stack can be read beforehand. The
subroutine finds the number and the arguments at fixed distances from its frame pointer, and its return
drops them.

* `accepts_of_stacked`: pushes succeed where there is memory below the stack.
* `step_call_of_backed`: a call succeeds where there is memory for its frame.
* `holds_of_keepsAbove`: what stands above the frame pointer of a subroutine.
* `accepts_arguments`: the pushes, the call, the view of the subroutine and its return.
-/

namespace WordMachine

namespace Bus

variable {bus bus' : Bus Ram}

/-- Whether there is a word at an address is known from the layout. -/
theorem isSome_word?_iff {a : Word} :
    (bus.word? a.toNat).isSome ↔ bus.layout.verdict a 2 = .ok () := by
  have hending := ending_answer bus a .readWord
  change (bus.answer a .readWord).1.map _ = bus.layout.verdict a 2 at hending
  rw [← hending, word?, if_pos (show a.toNat < addressSpace from a.toNat_lt), UInt16.ofNat_toNat]
  cases (bus.answer a .readWord).1 <;> simp [Except.map, Except.toOption]

theorem isSome_word?_of_layout (h : bus'.layout = bus.layout) {a : Word}
    (ha : (bus.word? a.toNat).isSome) : (bus'.word? a.toNat).isSome := by
  rw [isSome_word?_iff, h]
  exact isSome_word?_iff.mp ha

/-- A word can be written wherever one can be read. -/
theorem exists_answer_writeWord {a : Word} (h : (bus.word? a.toNat).isSome) (word : Word) :
    ∃ bus₁, bus.answer a (.writeWord word) = (.ok (), bus₁) := by
  have hending : Device.ending bus a (.writeWord word) = .ok () := by
    rw [ending_answer]
    exact isSome_word?_iff.mp h
  obtain ⟨⟨⟩, bus₁, hwrite⟩ := Device.exists_answer_eq_ok hending
  exact ⟨bus₁, hwrite⟩

end Bus

namespace Machine

/-! ## Instructions that succeed -/

section

variable {machine : Machine Ram}

theorem layout_step (machine : Machine Ram) : machine.step.2.bus.layout = machine.bus.layout := by
  cases hm : machine.halted with
  | true => rw [step_of_halted hm]
  | false =>
    rw [bus_step hm]
    exact Bus.layout_eval _ machine.bus

/-- A push succeeds if there is a word at the top of the stack. -/
theorem step_push_of_backed {operand : Operand}
    (hi : machine.instruction? = some (.push operand))
    (hbacked : (machine.bus.word? (machine.core.get .sp).toNat).isSome) :
    machine.step.1 = .ok false := by
  obtain ⟨bus, hwrite⟩ := Bus.exists_answer_writeWord hbacked
    ((machine.core.advanced (1 + operand.length)).valueOf operand)
  have hpush : (Microcode.perform (machine.core.get .ip) (.push operand)).Completes
      (machine.core.advanced (1 + operand.length)) machine.bus ()
      (machine.core.advanced (1 + operand.length)).pushed bus := by
    rw [Microcode.perform, Microcode.completes_value_bind, Microcode.push_completes_iff,
      Core.get_advanced_of_ne _ _ (by decide)]
    exact ⟨hwrite, rfl⟩
  exact (step_of_instruction? hi hpush).1

/-- A call succeeds if there are words where its frame will be. -/
theorem step_call_of_backed {operand : Operand}
    (hi : machine.instruction? = some (.call operand))
    (hbacked : ∀ i < 10, (machine.bus.word? (machine.core.get .sp - 2 * .ofNat i).toNat).isSome) :
    machine.step.1 = .ok false := by
  have hm := (instruction?_eq_some_iff.mp hi).1
  have hsp : (machine.core.advanced (Instruction.call operand).length).get .sp =
    machine.core.get .sp := Core.get_advanced_of_ne _ _ (by decide)
  obtain ⟨fetched, frame, htrace, -, hframe⟩ := order_of_call hi
  rw [trace_of_not_halted hm] at htrace
  -- no access to a word of the frame fails
  have hsucceeds : ∀ a ∈ slots (machine.core.get .sp) 10, ∀ request : Request,
      request.width = 2 → ∀ fault, ⟨a, request, .error fault⟩ ∉ frame := by
    intro a ha request hwidth fault hevent
    obtain ⟨i, hlt, rfl⟩ := mem_slots_iff.mp ha
    have hending := Bus.ending_of_mem_trace (htrace ▸ List.mem_append_right fetched hevent)
    change Except.error fault = machine.bus.layout.verdict _ request.width at hending
    rw [hwidth, Bus.isSome_word?_iff.mp (hbacked i hlt)] at hending
    cases hending
  rcases hframe with ⟨fault, -, hreads⟩ | ⟨reads, writes, verdict, rfl, -, hwrites, hstep⟩
  · obtain ⟨a, request, hplan, hevent⟩ := hreads.exists_failed
    obtain ⟨b, hb, heq⟩ := List.mem_map.mp hplan
    cases heq
    exact absurd hevent (hsucceeds _ (hsp ▸ hb) _ rfl fault)
  · obtain fault | ⟨⟨⟩⟩ := verdict
    · obtain ⟨a, request, hplan, hevent⟩ := hwrites.exists_failed
      obtain ⟨word, ha, rfl⟩ := mem_wordWrites hplan
      exact absurd (List.mem_append_right reads hevent) (hsucceeds _ (hsp ▸ ha) _ rfl fault)
    · exact hstep

/-- A load with an offset succeeds if there is a word at the sum. -/
theorem step_loadIndexed {base word : Word} {offset target : Register} (hoffset : offset ≠ .ip)
    (hi : machine.instruction? = some (.loadIndexed base offset target))
    (hword : machine.bus.word? ((machine.core.get offset).toNat + base.toNat) = some word) :
    machine.step.1 = .ok false ∧ machine.step.2.core = (machine.core.advanced 5).set target word ∧
      machine.step.2.bus = machine.bus := by
  have hlt := Bus.lt_of_word?_eq_some hword
  refine step_of_instruction? hi ?_
  rw [Microcode.perform, Microcode.completes_get_bind, Core.get_advanced_of_ne _ _ hoffset.symm,
    effectiveAddress, if_pos (by omega), Microcode.completes_check_bind]
  refine ⟨_, rfl, ?_⟩
  rw [Microcode.completes_access_bind]
  refine ⟨word, machine.bus, ?_, Microcode.completes_set.mpr ⟨rfl, rfl⟩⟩
  refine Bus.answer_readWord_iff.mpr ⟨?_, rfl⟩
  rw [UInt16.toNat_add, Nat.mod_eq_of_lt (by omega), Nat.add_comm]
  exact hword

end

/-! ## Pushes -/

/-- A word is pushed, from outside or by the next instruction. -/
inductive Pushes (machine : Machine Ram) (word : Word) : Except Fault Unit → Machine Ram → Prop
  | outside : Pushes machine word (machine.push word).1 (machine.push word).2
  | instruction {operand : Operand} (hi : machine.instruction? = some (.push operand))
      (hvalue : (machine.core.advanced (1 + operand.length)).valueOf operand = word) :
      Pushes machine word (machine.step.1.map fun _ => ()) machine.step.2

/-- However the words of a list are pushed one after the other, with code between the pushes that
    leaves the stack alone, every push succeeds and the machine is in a state of which `post` holds. -/
def Accepts (post : Machine Ram → Prop) : List Word → Machine Ram → Prop
  | [], machine => ∀ machine', QuietRun machine machine' → post machine'
  | word :: words, machine => ∀ machine' result next, QuietRun machine machine' →
    Pushes machine' word result next → result = .ok () ∧ Accepts post words next

/-- The words of a list were pushed since `start`, the first of the list last. -/
structure Stacked (start : Machine Ram) (words : List Word) (machine : Machine Ram) : Prop where
  pointers : machine.core.pointers = (start.core.lowered words.length).pointers
  layout : machine.bus.layout = start.bus.layout
  holds : machine.bus.Holds ((machine.core.get .sp).toNat + 2) words

section

variable {start machine next : Machine Ram} {words : List Word}

theorem stacked_start (start : Machine Ram) : Stacked start [] start := by
  constructor
  · rw [List.length_nil, Core.lowered_zero]
  · rfl
  · trivial

theorem Stacked.quiet (h : Stacked start words machine) (hrun : QuietRun machine next) :
    Stacked start words next := by
  induction hrun with
  | refl => exact h
  | @step machine' hrun hquiet ih =>
    have hsp : machine'.step.2.core.get .sp = machine'.core.get .sp :=
      congrArg Prod.fst hquiet.pointers
    constructor
    · exact hquiet.pointers.trans ih.pointers
    · exact (layout_step machine').trans ih.layout
    · rw [hsp]
      exact hquiet.words.holds ih.holds

/-- A word that is stored at the top of the stack is on the stack once the stack pointer has moved. -/
theorem Stacked.pushed (h : Stacked start words machine)
    (hroom : 2 * (words.length + 1) ≤ (start.core.get .sp).toNat) {word : Word}
    (hwrite : machine.bus.answer (machine.core.get .sp) (.writeWord word) = (.ok (), next.bus))
    (hcore : next.core.pointers = machine.core.pushed.pointers) :
    Stacked start (word :: words) next := by
  have hpointers : next.core.pointers = (start.core.lowered (words.length + 1)).pointers := by
    rw [hcore, ← Core.lowered_pushed]
    exact Core.pointers_pushed h.pointers
  have hbefore := Core.toNat_sp_of_pointers h.pointers (by omega)
  have hafter := Core.toNat_sp_of_pointers hpointers hroom
  constructor
  · exact hpointers
  · have hlayout := Bus.layout_answer machine.bus (machine.core.get .sp) (.writeWord word)
    rw [hwrite] at hlayout
    exact hlayout.trans h.layout
  · rw [show (next.core.get .sp).toNat + 2 = (machine.core.get .sp).toNat by omega]
    exact Bus.holds_of_writeWord hwrite h.holds

/-- A push succeeds if there was a word in its place at the start. -/
theorem Stacked.pushes (h : Stacked start words machine)
    (hroom : 2 * (words.length + 1) ≤ (start.core.get .sp).toNat)
    (hbacked : (start.bus.word? ((start.core.get .sp).toNat - 2 * words.length)).isSome)
    {word : Word} {result : Except Fault Unit} (hpush : Pushes machine word result next) :
    result = .ok () ∧ Stacked start (word :: words) next := by
  have hsp := Core.toNat_sp_of_pointers h.pointers (by omega)
  rw [show (start.core.get .sp).toNat - 2 * words.length = (machine.core.get .sp).toNat by omega]
    at hbacked
  replace hbacked := Bus.isSome_word?_of_layout h.layout hbacked
  cases hpush with
  | outside =>
    obtain ⟨bus, hwrite⟩ := Bus.exists_answer_writeWord hbacked word
    obtain ⟨core, bus₀, halted, log⟩ := machine
    have hpush : push ⟨core, bus₀, halted, log⟩ word = (.ok (), ⟨core.pushed, bus, halted, log⟩) := by
      rw [push]
      simp only at hwrite
      rw [hwrite]
    rw [hpush]
    exact ⟨rfl, h.pushed hroom hwrite rfl⟩
  | @instruction operand hi hvalue =>
    have hstep := step_push_of_backed hi hbacked
    obtain ⟨hwrite, hcore⟩ := step_of_push hi hstep
    rw [hvalue] at hwrite
    refine ⟨by rw [hstep]; rfl, h.pushed hroom hwrite ?_⟩
    rw [hcore]
    exact Core.pointers_pushed (machine.core.pointers_set (by decide) (by decide) _)

/-- Pushes succeed as long as there were words in their places at the start. -/
theorem accepts_of_stacked {post : Machine Ram → Prop} {more : List Word}
    (h : Stacked start words machine)
    (hroom : 2 * (words.length + more.length) ≤ (start.core.get .sp).toNat)
    (hbacked : ∀ i < words.length + more.length,
      (start.bus.word? ((start.core.get .sp).toNat - 2 * i)).isSome)
    (hpost : ∀ machine', Stacked start (more.reverse ++ words) machine' → post machine') :
    machine.Accepts post more := by
  induction more generalizing words machine with
  | nil => exact fun machine' hrun => hpost machine' (h.quiet hrun)
  | cons word more ih =>
    rw [List.length_cons] at hroom hbacked
    intro machine' result next hrun hpush
    obtain ⟨hok, hnext⟩ :=
      (h.quiet hrun).pushes (by omega) (hbacked words.length (by omega)) hpush
    refine ⟨hok, ih hnext ?_ ?_ ?_⟩
    · rw [List.length_cons]
      omega
    · intro i hi
      rw [List.length_cons] at hi
      exact hbacked i (by omega)
    · intro machine' hstacked
      refine hpost machine' ?_
      rwa [List.reverse_cons, List.append_assoc]

end

/-! ## The view of a subroutine -/

/-- What a caller pushes to pass arguments: the arguments and then their number. -/
def counted (args : List Word) : List Word := args ++ [.ofNat args.length]

@[simp] theorem length_counted (args : List Word) : (counted args).length = args.length + 1 := by
  simp [counted]

theorem reverse_counted (args : List Word) :
    (counted args).reverse = .ofNat args.length :: args.reverse := by
  simp [counted]

/-- The frame pointer of a subroutine is the one of its entry, and as many words above it as given are
    what they were then. -/
structure KeepsAbove (entry callee : Machine Ram) (n : Nat) : Prop where
  fp : callee.core.get .fp = entry.core.get .fp
  words : ∀ i < n, callee.bus.word? ((entry.core.get .fp).toNat + 2 + 2 * i) =
    entry.bus.word? ((entry.core.get .fp).toNat + 2 + 2 * i)

/-- A call passes arguments that were pushed since `start`, followed by their number. -/
structure Passes (start : Machine Ram) (args : List Word) (caller : Machine Ram)
    (operand : Operand) : Prop where
  step : caller.step.1 = .ok false
  fp : (caller.step.2.core.get .fp).toNat + 20 + 2 * (args.length + 1) = (start.core.get .sp).toNat
  /-- the number and the arguments are at fixed distances from the frame pointer, the last argument
      first -/
  count : ∀ callee, KeepsAbove caller.step.2 callee (args.length + 11) →
    callee.bus.word? ((callee.core.get .fp).toNat + 22) = some (.ofNat args.length)
  argument : ∀ callee, KeepsAbove caller.step.2 callee (args.length + 11) →
    ∀ i word, args[i]? = some word →
      callee.bus.word? ((callee.core.get .fp).toNat + 24 + 2 * (args.length - (i + 1))) = some word
  /-- loads relative to the frame pointer find them there -/
  loadCount : ∀ callee, KeepsAbove caller.step.2 callee (args.length + 11) →
    ∀ target, callee.instruction? = some (.loadIndexed 22 .fp target) →
      callee.step.1 = .ok false ∧
        callee.step.2.core = (callee.core.advanced 5).set target (.ofNat args.length)
  loadArgument : ∀ callee, KeepsAbove caller.step.2 callee (args.length + 11) →
    ∀ i word target, args[i]? = some word →
      callee.instruction? =
          some (.loadIndexed (.ofNat (24 + 2 * (args.length - (i + 1)))) .fp target) →
      callee.step.1 = .ok false ∧ callee.step.2.core = (callee.core.advanced 5).set target word
  /-- a return drops them, so that all that is left of the call is the size of one word that the counter
      has in excess -/
  returns : ∀ callee, KeepsAbove caller.step.2 callee (args.length + 11) →
    callee.instruction? = some .ret →
      callee.step.1 = .ok false ∧
        ReturnsTo caller (.call operand) (.ofNat args.length) callee callee.step.2 ∧
        callee.step.2.core.get .sp = start.core.get .sp ∧
        callee.step.2.core.frameSize = start.core.frameSize + 2

section

variable {start caller callee : Machine Ram} {args : List Word} {operand : Operand}

/-- Above the frame pointer of a subroutine stand the words of the call, the number of the arguments
    and the arguments, the last one first. -/
theorem holds_of_keepsAbove (hcalls : caller.Calls operand)
    (hstacked : Stacked start (counted args).reverse caller)
    (hkeeps : KeepsAbove caller.step.2 callee (args.length + 11)) :
    callee.bus.Holds ((callee.core.get .fp).toNat + 2)
      (caller.storedFrame operand ++ .ofNat args.length :: args.reverse) := by
  obtain ⟨hframe, habove⟩ := hcalls.holds
  have hfp := hcalls.toNat_fp
  have hholds := hstacked.holds
  rw [reverse_counted] at hholds
  have hentry : caller.step.2.bus.Holds ((caller.step.2.core.get .fp).toNat + 2)
      (caller.storedFrame operand ++ .ofNat args.length :: args.reverse) := by
    refine Bus.holds_append.mpr ⟨hframe, ?_⟩
    rw [length_storedFrame, show (caller.step.2.core.get .fp).toNat + 2 + 2 * 10 =
      (caller.core.get .sp).toNat + 2 by omega]
    exact hholds.congr fun i _ => habove _ (by omega)
  rw [hkeeps.fp]
  refine hentry.congr fun i hi => hkeeps.words i ?_
  rw [List.length_append, length_storedFrame, List.length_cons, List.length_reverse] at hi
  omega

/-- They are words at fixed distances from the frame pointer. -/
theorem words_of_keepsAbove (hcalls : caller.Calls operand)
    (hstacked : Stacked start (counted args).reverse caller)
    (hkeeps : KeepsAbove caller.step.2 callee (args.length + 11)) :
    callee.bus.word? ((callee.core.get .fp).toNat + 22) = some (.ofNat args.length) ∧
      ∀ i word, args[i]? = some word →
        callee.bus.word? ((callee.core.get .fp).toNat + 24 + 2 * (args.length - (i + 1))) =
          some word := by
  obtain ⟨-, hcounted⟩ := Bus.holds_append.mp (holds_of_keepsAbove hcalls hstacked hkeeps)
  rw [length_storedFrame] at hcounted
  refine ⟨hcounted.1, fun i word hword => ?_⟩
  obtain ⟨hlt, -⟩ := List.getElem?_eq_some_iff.mp hword
  have hreverse : args.reverse[args.length - (i + 1)]? = some word := by
    rw [List.getElem?_reverse (by omega), ← hword]
    congr 1
    omega
  have hargument := hcounted.2.getElem? hreverse
  rwa [show (callee.core.get .fp).toNat + 2 + 2 * 10 + 2 = (callee.core.get .fp).toNat + 24
    by omega] at hargument

/-- There is memory for the frame of a call below the arguments. -/
theorem calls_of_stacked (hi : caller.instruction? = some (.call operand))
    (hstacked : Stacked start (counted args).reverse caller)
    (hroom : 2 * (args.length + 1) + 20 ≤ (start.core.get .sp).toNat)
    (hbacked : ∀ i < args.length + 11,
      (start.bus.word? ((start.core.get .sp).toNat - 2 * i)).isSome) :
    caller.Calls operand := by
  have hpointers := hstacked.pointers
  rw [List.length_reverse, length_counted] at hpointers
  have hsp := Core.toNat_sp_of_pointers hpointers (by omega)
  refine ⟨hi, step_call_of_backed hi fun i hlt => ?_, by omega⟩
  have hslot : (caller.core.get .sp - 2 * .ofNat i).toNat =
      (start.core.get .sp).toNat - 2 * (args.length + 1 + i) := by
    have := @Core.toNat_sp_lowered caller.core i (by omega)
    rw [Core.get_lowered, if_pos rfl] at this
    omega
  refine Bus.isSome_word?_of_layout hstacked.layout ?_
  rw [hslot]
  exact hbacked _ (by omega)

/-- A call of a machine that has pushed arguments and their number passes them. -/
theorem passes_of_stacked (hi : caller.instruction? = some (.call operand))
    (hstacked : Stacked start (counted args).reverse caller)
    (hroom : 2 * (args.length + 1) + 20 ≤ (start.core.get .sp).toNat)
    (hbacked : ∀ i < args.length + 11,
      (start.bus.word? ((start.core.get .sp).toNat - 2 * i)).isSome) :
    Passes start args caller operand := by
  have hcalls := calls_of_stacked hi hstacked hroom hbacked
  have hpointers := hstacked.pointers
  rw [List.length_reverse, length_counted] at hpointers
  have hsp := Core.toNat_sp_of_pointers hpointers (by omega)
  have hfp := hcalls.toNat_fp
  have hsize := (start.core.get .sp).toNat_lt
  have hcount : (UInt16.ofNat args.length).toNat = args.length := by
    rw [UInt16.toNat_ofNat', Nat.mod_eq_of_lt (by omega)]
  -- above the frame pointer: ten words of the frame, the number of arguments, the last argument first
  constructor
  case step => exact hcalls.step
  case fp => omega
  case count => exact fun callee hkeeps => (words_of_keepsAbove hcalls hstacked hkeeps).1
  case argument => exact fun callee hkeeps => (words_of_keepsAbove hcalls hstacked hkeeps).2
  case loadCount =>
    intro callee hkeeps target htarget
    obtain ⟨hcounted, -⟩ := words_of_keepsAbove hcalls hstacked hkeeps
    obtain ⟨hok, hcore, -⟩ := step_loadIndexed (by decide) htarget hcounted
    exact ⟨hok, hcore⟩
  case loadArgument =>
    intro callee hkeeps i word target hword htarget
    have hargument := (words_of_keepsAbove hcalls hstacked hkeeps).2 i word hword
    have hbase : (UInt16.ofNat (24 + 2 * (args.length - (i + 1)))).toNat =
        24 + 2 * (args.length - (i + 1)) := by
      rw [UInt16.toNat_ofNat', Nat.mod_eq_of_lt (by omega)]
    rw [Nat.add_assoc, ← hbase] at hargument
    obtain ⟨hok, hcore, -⟩ := step_loadIndexed (by decide) htarget hargument
    exact ⟨hok, hcore⟩
  case returns =>
    intro callee hkeeps hret
    obtain ⟨hframe, hcounted⟩ :=
      Bus.holds_append.mp (holds_of_keepsAbove hcalls hstacked hkeeps)
    have hcalleeFp := congrArg UInt16.toNat hkeeps.fp
    rw [length_storedFrame, show (callee.core.get .fp).toNat + 2 + 2 * 10 =
      (caller.core.get .sp).toNat + 2 by omega] at hcounted
    obtain ⟨hok, hreturns⟩ := returnsTo_of_holds hret (by omega)
      (by rw [List.length_reverse, hcount]) hframe hcounted
    refine ⟨hok, hreturns, UInt16.toNat_inj.mp ?_, ?_⟩
    · have hdropped := hreturns.sp
      rw [hcount] at hdropped
      omega
    · have hframeSize : caller.core.frameSize =
          start.core.frameSize + 2 * .ofNat (args.length + 1) := by
        rw [← Core.frameSize_lowered]
        exact congrArg (·.2.2) hpointers
      rw [hreturns.frameSize, hframeSize, UInt16.ofNat_add]
      grind

/-- Arguments can be pushed and passed to a subroutine wherever there is memory for them, for their
    number and for the frame of the call. -/
theorem accepts_arguments (hroom : 2 * (args.length + 1) + 20 ≤ (start.core.get .sp).toNat)
    (hbacked : ∀ i < args.length + 11,
      (start.bus.word? ((start.core.get .sp).toNat - 2 * i)).isSome) :
    start.Accepts (fun caller => ∀ operand, caller.instruction? = some (.call operand) →
      Passes start args caller operand) (counted args) := by
  refine accepts_of_stacked (stacked_start start) ?_ ?_ ?_
  · rw [length_counted, List.length_nil]
    omega
  · intro i hi
    rw [length_counted, List.length_nil] at hi
    exact hbacked i (by omega)
  · intro caller hstacked operand hi
    rw [List.append_nil] at hstacked
    exact passes_of_stacked hi hstacked hroom hbacked

end

/-- A machine that is about to push two arguments and their number and to call a subroutine, which
    loads the first argument and returns. -/
def passing : Machine Ram :=
  loaded #[0x17, 0, 7, 0x17, 0, 8, 0x17, 0, 2, 0x5e, 0, 12, 0x1d, 0, 26, 11, 2, 0x60]

theorem accepts_passing :
    2 * (2 + 1) + 20 ≤ (passing.core.get .sp).toNat ∧
      (∀ i < 2 + 11, (passing.bus.word? ((passing.core.get .sp).toNat - 2 * i)).isSome) ∧
      Passes passing [7, 8] (passing.after 3) (.literal 12) ∧
      (passing.after 5).core.get .r1 = 7 ∧
      (passing.after 6).core.get .sp = passing.core.get .sp ∧
      (passing.after 6).core.frameSize = 2 := by
  have hroom : 2 * (2 + 1) + 20 ≤ (passing.core.get .sp).toNat := by decide +kernel
  have hbacked : ∀ i < 2 + 11,
      (passing.bus.word? ((passing.core.get .sp).toNat - 2 * i)).isSome := by decide +kernel
  have hpushes : passing.instruction? = some (.push (.literal 7)) ∧
      passing.step.2.instruction? = some (.push (.literal 8)) ∧
      passing.step.2.step.2.instruction? = some (.push (.literal 2)) ∧
      (passing.after 3).instruction? = some (.call (.literal 12)) := by decide +kernel
  have haccepts := @accepts_arguments passing [7, 8] hroom hbacked
  have hfirst := haccepts _ _ _ .refl (.instruction hpushes.1 rfl)
  have hsecond := hfirst.2 _ _ _ .refl (.instruction hpushes.2.1 rfl)
  have hthird := hsecond.2 _ _ _ .refl (.instruction hpushes.2.2.1 rfl)
  refine ⟨hroom, hbacked, hthird.2 _ .refl (.literal 12) hpushes.2.2.2, ?_⟩
  decide +kernel

end Machine

end WordMachine
