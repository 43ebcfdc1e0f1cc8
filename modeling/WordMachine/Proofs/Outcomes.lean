import WordMachine.Proofs.Batches

/-!
# Outcomes of a run

What the program prints and the code that it exits with, for any image and any options.

* `code_eq_zero_iff`: the exit code says whether the machine has halted.
* `prints_iff_of_limit`: a limit that is not reached makes no difference.
* `fault_of_accepted`: the faults with which a run can end.
* `outcomes`: all that is certain about a run.
-/

namespace WordMachine.CommandLine

variable {options : Options} {image : Array Byte} {start : Word} {report : Report}

/-- The exit code is zero if the machine halts within the limit, and only then. -/
theorem code_eq_zero_iff (h : Prints options image report) :
    report.code = 0 ↔ ∃ start limit k, Accepted options image start limit ∧
      (booted options image start).Halts k ∧ ∀ n, limit = some n → k < n := by
  constructor
  · intro hcode
    cases prints_iff_reports.mp h with
    | halted haccepted hhalts hlimit => exact ⟨_, _, _, haccepted, hhalts, hlimit⟩
    | refused | failed | exhausted => cases hcode
  · rintro ⟨start, limit, k, haccepted, hhalts, hlimit⟩
    obtain ⟨output, houtput⟩ := exists_printed options start haccepted.size (k + 1)
    have hprints := prints_iff_reports.mpr (.halted haccepted hhalts hlimit houtput)
    rw [h.unique hprints]

/-- A run that halts before its limit reports what it reports without one. -/
theorem prints_iff_of_limit {k n : Nat} {text : String} (h : Accepted options image start none)
    (hhalts : (booted options image start).Halts k) (hparse : Number.parse text = .ok n)
    (hk : k < n) :
    Prints options image report ↔ Prints { options with maxSteps := some text } image report := by
  obtain ⟨output, houtput⟩ := exists_printed options start h.size (k + 1)
  have hprints : Prints options image ⟨0, output, ""⟩ :=
    prints_iff_reports.mpr (.halted h hhalts nofun houtput)
  have hlimited : Prints { options with maxSteps := some text } image ⟨0, output, ""⟩ := by
    have haccepted : Accepted { options with maxSteps := some text } image start (some n) :=
      ⟨h.size, h.start, n, hparse, rfl⟩
    refine prints_iff_reports.mpr (.halted haccepted hhalts (fun m hm => ?_) houtput)
    obtain rfl := Option.some.inj hm
    exact hk
  constructor
  · intro hreport
    rw [hreport.unique hprints]
    exact hlimited
  · intro hreport
    rw [hreport.unique hlimited]
    exact hprints

/-- The faults of a run. -/
theorem fault_of_accepted {limit : Option Nat} (h : Accepted options image start limit) {k : Nat}
    {fault : Fault} (hfault : ((booted options image start).after k).step.1 = .error fault) :
    fault = .outOfBounds 0xffff 0x10000 ∨
      ∃ address, 0x10000 ≤ address ∧ address ≤ 0x1fffe ∧ fault = .addressOverflow address := by
  cases Machine.explained_of_step_eq_error Buffer.steady (backed_booted options start h.size k)
    hfault with
  | lastWord => exact Or.inl rfl
  | indexed _ _ hlow hhigh => exact Or.inr ⟨_, hlow, hhigh, rfl⟩
  | stackEnd _ _ hx => exact Or.inr ⟨_, by omega, by omega, rfl⟩

/-- What is certain about the run that the options ask for, given the image. -/
structure Outcomes (options : Options) (image : Array Byte) : Prop where
  /-- the image and the options will do if nothing is wrong with them -/
  checked : (∃ start limit, Accepted options image start limit) ↔
    ¬∃ failure, Refused options image failure
  /-- the run ends in one of four ways -/
  reports : ∀ report, Prints options image report ↔ Reports options image report
  /-- it ends in only one of them -/
  unique : ∀ report report', Prints options image report → Prints options image report' →
    report = report'
  /-- an instruction fails at the last word of the memory or for an address past its end -/
  faults : ∀ start limit k fault, Accepted options image start limit →
    ((booted options image start).after k).step.1 = .error fault →
      fault = .outOfBounds 0xffff 0x10000 ∨
        ∃ address, 0x10000 ≤ address ∧ address ≤ 0x1fffe ∧ fault = .addressOverflow address
  /-- from what it draws the words can be told that it writes to the page of the screen -/
  drawn : ∀ start n, Screen.decode (drawing options image start n) =
    some (if options.screen then
      ((booted options image start).screenWrites n).map Screen.Drawing.ofWrite
    else [])
  /-- it ends, unless it has no limit and goes on forever -/
  ends : (∃ report, Prints options image report) ∨
    ∃ start, Accepted options image start none ∧ ∀ n, (booted options image start).GoesOn n
  /-- the exit code is zero if the machine halts within the limit, and only then -/
  code : ∀ report, Prints options image report →
    (report.code = 0 ↔ ∃ start limit k, Accepted options image start limit ∧
      (booted options image start).Halts k ∧ ∀ n, limit = some n → k < n)
  /-- a limit that is not reached makes no difference -/
  withLimit : ∀ start k text n, Accepted options image start none →
    (booted options image start).Halts k → Number.parse text = .ok n → k < n →
      ∀ report, Prints options image report ↔
        Prints { options with maxSteps := some text } image report
  /-- passing on what was written while the machine runs makes no difference -/
  inBatches : ∀ session, Session.prepare options (.ok image) = .ok session → ∀ size > 0,
    ∀ report, session.PrintsInBatches size options.dump report ↔ Prints options image report

/-- What a run from the command line reports. -/
theorem outcomes (options : Options) (image : Array Byte) : Outcomes options image where
  checked := exists_accepted_iff
  reports _ := prints_iff_reports
  unique _ _ h h' := h.unique h'
  faults _ _ _ _ h hfault := fault_of_accepted h hfault
  drawn := decode_drawing options image
  ends := prints_or_goesOn options image
  code _ := code_eq_zero_iff
  withLimit _ _ _ _ h hhalts hparse hk _ := prints_iff_of_limit h hhalts hparse hk
  inBatches _ h _ hsize _ := printsInBatches_iff hsize h

/-- An image as long as the memory: a halt instruction with pops behind it. -/
def pops : Array Byte := #[0xff] ++ Array.replicate 0xffff 0x1a

theorem size_pops : pops.size = 0x10000 := by
  rw [pops, Array.size_append, Array.size_replicate]
  rfl

theorem getElem?_pops {i : Nat} (hi : i < 0x10000) :
    pops[i]? = some (if i = 0 then 0xff else 0x1a) := by
  cases i with
  | zero =>
    rw [pops, Array.getElem?_append_left (by decide)]
    rfl
  | succ i =>
    have hrest : i < 0xffff := Nat.lt_of_succ_lt_succ hi
    simp [pops, Array.getElem?_append, hrest]

/-- A run with a screen that begins near the end of the memory. -/
def nearEnd : Options := ⟨"pops.bin", some "0xfffc", none, true, true⟩

/-- The machine of that run, before its first step. -/
def popping : Machine Peripheral := booted nearEnd pops 0xfffc

theorem popping_answer {a : Word} (ha : ¬Bus.OnScreen a) :
    popping.bus.answer a .readByte =
      (.ok (if a.toNat = 0 then 0xff else 0x1a), popping.bus) := by
  refine Bus.covered_readByte ha ?_
  rw [size_pops, Nat.sub_self, Array.replicate_zero, Array.append_empty]
  exact getElem?_pops a.toNat_lt

theorem popping_shows : popping.bus.Shows 0xfffc [0x1a, 0x1a, 0x1a, 0x1a, 0xff, 0x1a, 0x1a, 0x1a] := by
  intro i hi
  have hscreen : ∀ i < 8, ¬Bus.OnScreen (0xfffc + .ofNat i) := by decide
  rw [popping_answer (hscreen i hi)]
  have hbytes : ∀ i : Fin 8, (if (0xfffc + .ofNat i.val : Word).toNat = 0 then 0xff else 0x1a) =
      ([0x1a, 0x1a, 0x1a, 0x1a, 0xff, 0x1a, 0x1a, 0x1a] : List Byte)[i] := by decide
  exact congrArg (fun byte => ((.ok byte : Except Fault Byte), popping.bus)) (hbytes ⟨i, hi⟩)

theorem step_popping : popping.step.1 = .error (.addressOverflow 0x10000) :=
  Machine.step_of_pop rfl (popping_answer (by decide)) (popping_answer (by decide)) rfl

/-- What is shown of that machine: the line of the bytes goes on at the beginning of the memory. -/
def poppingDump : String :=
  "ip: 0xfffc\nacc: 0x0000\nr1: 0x0000\nr2: 0x0000\nr3: 0x0000\nr4: 0x0000\n" ++
    "r5: 0x0000\nr6: 0x0000\nr7: 0x0000\nr8: 0x0000\nsp: 0xfffe\nfp: 0xfffe\n" ++
    "0xfffc: 0x1a 0x1a 0x1a 0x1a 0xff 0x1a 0x1a 0x1a\n"

theorem shown_popping : Shown popping poppingDump := ⟨_, rfl, popping_shows, by decide +kernel⟩

/-- Of two things that are wrong the first one is reported, and then the other. A run that begins with a
    pop fails, and the machine is shown as it is before that. -/
theorem prints_pops :
    Prints { nearEnd with start := some "0x1fffc", maxSteps := some "few" } pops
        ⟨1, #[], "Error: start address 0x1fffc is out of range\n"⟩ ∧
      Prints { nearEnd with maxSteps := some "few" } pops
        ⟨1, #[], "Error: invalid number 'few'\n\nCaused by:\n    invalid digit found in string\n"⟩ ∧
      Prints nearEnd pops
        ⟨1, poppingDump.toUTF8.data, "Error: machine fault\n\nCaused by:\n" ++
          "    address 0x10000 is past the end of the address space\n"⟩ := by
  have hsize : pops.size ≤ 0x10000 := Nat.le_of_eq size_pops
  have hstart : StartsAt nearEnd 0xfffc := ⟨0xfffc, by rfl, by decide, rfl⟩
  refine ⟨?_, ?_, ?_⟩
  · have hrefused : Refused { nearEnd with start := some "0x1fffc", maxSteps := some "few" } pops
        (.startOutOfRange 0x1fffc) := .startRange hsize rfl (by rfl) (by decide)
    exact ((outcomes _ pops).reports _).mpr (.refused hrefused (.startOutOfRange 0x1fffc))
  · have hrefused : Refused { nearEnd with maxSteps := some "few" } pops
        (.invalidNumber "few" .invalidDigit) := .limitText hsize hstart rfl (by rfl)
    exact ((outcomes _ pops).reports _).mpr (.refused hrefused (.invalidNumber "few" .invalidDigit))
  · have hreason : Fault.Says (.addressOverflow 0x10000)
        "address 0x10000 is past the end of the address space" := .addressOverflow 0x10000
    -- nothing is drawn before the first step
    have hprinted : Printed popping (drawing nearEnd pops 0xfffc 0) true
        ((drawing nearEnd pops 0xfffc 0).toArray ++ poppingDump.toUTF8.data) := .dumped shown_popping
    have hreport := ((outcomes nearEnd pops).reports _).mpr
      (@Reports.failed _ _ _ none 0 _ _ _ ⟨hsize, hstart, rfl⟩ (.zero _) step_popping hreason nofun hprinted)
    rw [show drawing nearEnd pops 0xfffc 0 = [] from rfl, Array.empty_append] at hreport
    exact hreport

end WordMachine.CommandLine
