import WordMachine.CommandLine.Session
import WordMachine.Proofs.Decoding
import WordMachine.Proofs.Layout

/-!
# Memory under the screen

Two machines that the command line builds with a screen from images that differ under the screen only.
The bytes there cannot be reached, with one exception: a word is answered by the region at its first
byte, so that the word at the address just before the screen is read from the memory as a whole, and
its low byte is the first byte under the screen.

* `Agree.answer`: an access to two memories that hold the same bytes where it reads.
* `eval_of_alike`, `Alike.after`: a program, and a run, on two buses that differ under the screen.
* `sameRun_of_prepare`: the two runs cannot be told apart unless that word is read.
* `get_r1_of_load`: a program that reads it has the byte in a register.
-/

namespace WordMachine

variable {α ε : Type}

/-! ## Memories that agree -/

namespace Ram

/-- Two memories of one size hold the same bytes at the addresses of a set. -/
structure Agree (visible : Nat → Prop) (ram ram' : Ram) : Prop where
  size : ram.size = ram'.size
  bytes : ∀ i, visible i → ram.bytes[i]? = ram'.bytes[i]?

/-- Memories that agree answer in the same way if what is read is visible, and still agree then. -/
theorem Agree.answer {visible : Nat → Prop} {ram ram' : Ram} (h : Agree visible ram ram') (a : Word)
    {request : Request} (hread : request.isWrite = false →
      ∀ i, a.toNat ≤ i → i < a.toNat + request.width → visible i) :
    (Device.answer ram a request).1 = (Device.answer ram' a request).1 ∧
      Agree visible (Device.answer ram a request).2 (Device.answer ram' a request).2 := by
  have hreply : (Device.answer ram a request).1 = (Device.answer ram' a request).1 :=
    answer_congr h.size fun hwrite i hfirst hlast => h.bytes i (hread hwrite i hfirst hlast)
  refine ⟨hreply, (size_answer ram a request).trans (h.size.trans (size_answer ram' a request).symm),
    fun i hi => ?_⟩
  cases hok : (Device.answer ram a request).1 with
  | error fault =>
    rw [answer_of_error hok, answer_of_error (hreply.symm.trans hok)]
    exact h.bytes i hi
  | ok reply =>
    by_cases hstored : a.toNat ≤ i ∧ i < a.toNat + request.stored.length
    · obtain ⟨k, rfl⟩ := Nat.exists_eq_add_of_le hstored.1
      have hk : k < request.stored.length := by omega
      rw [getElem?_answer_of_ok hok hk, getElem?_answer_of_ok (hreply.symm.trans hok) hk]
    · have hother : i < a.toNat ∨ a.toNat + request.stored.length ≤ i := by omega
      rw [getElem?_answer hother, getElem?_answer hother]
      exact h.bytes i hi

end Ram

/-! ## Buses with a screen -/

namespace Bus

/-- The region of a memory over the whole address space. -/
def whole (ram : Ram) : Region (Ram ⊕ ε) := ⟨0, 0x0000, 0xffff, true, .inl ram⟩

/-- The region of another device over the page of the screen. -/
def page (cover : ε) : Region (Ram ⊕ ε) := ⟨1, 0x3000, 0x30ff, true, .inr cover⟩

/-- A memory over the whole address space and a device over the page of the screen. -/
def covered (ram : Ram) (cover : ε) : Bus (Ram ⊕ ε) := ⟨[page cover, whole ram], 2⟩

/-- An address is on the page of the screen. -/
def OnScreen (a : Word) : Prop := 0x3000 ≤ a.toNat ∧ a.toNat ≤ 0x30ff

instance (a : Word) : Decidable (OnScreen a) := inferInstanceAs (Decidable (_ ∧ _))

theorem contains_page_iff {cover : ε} {a : Word} :
    (page cover : Region (Ram ⊕ ε)).contains a ↔ OnScreen a := by
  rw [Region.contains_iff, UInt16.le_iff_toNat_le, UInt16.le_iff_toNat_le]
  rfl

theorem contains_whole (ram : Ram) (a : Word) : (whole ram : Region (Ram ⊕ ε)).contains a := by
  have hlt := a.toNat_lt
  rw [Region.contains_iff, UInt16.le_iff_toNat_le, UInt16.le_iff_toNat_le]
  exact ⟨Nat.zero_le _, Nat.le_of_lt_succ hlt⟩

section

variable [Device ε] {ram : Ram} {cover : ε} {a : Word}

theorem covered_answer_of_onScreen (h : OnScreen a) (request : Request) :
    (covered ram cover).answer a request =
      ((Device.answer cover (a - 0x3000) request).1,
        covered ram (Device.answer cover (a - 0x3000) request).2) := by
  have hregions : (covered ram cover).regions = [] ++ page cover :: [whole ram] := rfl
  rw [answer_of_split hregions (fun r hr => nomatch hr) (contains_page_iff.mpr h)]
  rfl

theorem covered_answer (h : ¬OnScreen a) (request : Request) :
    (covered ram cover).answer a request =
      ((Device.answer ram a request).1, covered (Device.answer ram a request).2 cover) := by
  have hregions : (covered ram cover).regions = [page cover] ++ whole ram :: [] := rfl
  have hpage : ∀ r ∈ [(page cover : Region (Ram ⊕ ε))], r.contains a = false := by
    intro r hr
    rw [List.mem_singleton.mp hr, ← Bool.not_eq_true, contains_page_iff]
    exact h
  have hlocal : (whole ram : Region (Ram ⊕ ε)).localAddress a = a := UInt16.sub_zero a
  rw [answer_of_split hregions hpage (contains_whole ram a), hlocal]
  rfl

/-- Two buses with the same device over the page of the screen and memories that hold the same bytes
    outside of it, and under it up to `low`. -/
inductive Alike (low : Nat) : Bus (Ram ⊕ ε) → Bus (Ram ⊕ ε) → Prop
  | intro {ram ram' : Ram} (cover : ε) (h : ram.Agree (fun i => i < low ∨ 0x30ff < i) ram') :
      Alike low (covered ram cover) (covered ram' cover)

/-- The word that begins just before the page of the screen is the only one that shows a byte under
    the screen. -/
theorem Alike.answer {low : Nat} {bus bus' : Bus (Ram ⊕ ε)} (h : Alike low bus bus')
    (hlow : 0x3000 ≤ low) {request : Request}
    (hread : 0x3000 < low ∨ (a, request) ≠ (0x2fff, .readWord)) :
    (bus.answer a request).1 = (bus'.answer a request).1 ∧
      Alike low (bus.answer a request).2 (bus'.answer a request).2 := by
  obtain ⟨cover, h⟩ := h
  by_cases ha : OnScreen a
  · rw [covered_answer_of_onScreen ha, covered_answer_of_onScreen ha]
    exact ⟨rfl, .intro _ h⟩
  · rw [covered_answer ha, covered_answer ha]
    have houtside : a.toNat < 0x3000 ∨ 0x30ff < a.toNat := by
      unfold OnScreen at ha
      omega
    obtain ⟨hreply, hagree⟩ := @Ram.Agree.answer _ _ _ h a request fun hwrite i hfirst hlast => by
      cases request with
      | readByte =>
        replace hlast : i < a.toNat + 1 := hlast
        omega
      | readWord =>
        replace hlast : i < a.toNat + 2 := hlast
        -- the second byte may be the first one under the screen
        have hword : low = 0x3000 → a.toNat ≠ 0x2fff := by
          intro hlow' haddress
          rcases hread with hread | hread
          · omega
          · exact hread (congrArg (·, Request.readWord) (UInt16.toNat_inj.mp haddress))
        omega
      | writeByte value => cases hwrite
      | writeWord value => cases hwrite
    exact ⟨hreply, .intro cover hagree⟩

end

end Bus

/-! ## Programs and runs -/

open Bus (Alike)

/-- A program comes to the same end on two buses that differ under the screen, unless it reads the
    word that begins just before it. -/
theorem BusProgram.eval_of_alike [Device ε] {low : Nat} (hlow : 0x3000 ≤ low)
    {bus bus' : Bus (Ram ⊕ ε)} (h : Alike low bus bus') (p : BusProgram α)
    (hread : 0x3000 < low ∨ (0x2fff, .readWord) ∉ p.accesses bus) :
    (p.eval bus).1 = (p.eval bus').1 ∧ Alike low (p.eval bus).2 (p.eval bus').2 := by
  induction p generalizing bus bus' with
  | done result => exact ⟨rfl, h⟩
  | fault f => exact ⟨rfl, h⟩
  | access address request next ih =>
    rw [accesses] at hread
    have hfirst : 0x3000 < low ∨ (address, request) ≠ (0x2fff, .readWord) :=
      hread.imp_right fun hnot heq => hnot (heq ▸ List.mem_cons_self)
    obtain ⟨hreply, hafter⟩ := h.answer hlow hfirst
    change (Device.answer bus address request).1 = (Device.answer bus' address request).1 at hreply
    change Alike low (Device.answer bus address request).2
      (Device.answer bus' address request).2 at hafter
    rw [eval, eval]
    generalize Device.answer bus address request = outcome at hreply hafter hread
    generalize Device.answer bus' address request = outcome' at hreply hafter
    obtain ⟨reply, bus₁⟩ := outcome
    obtain ⟨reply', bus₁'⟩ := outcome'
    obtain rfl : reply = reply' := hreply
    -- after the same reply both runs go on with the same program
    cases reply with
    | error f => exact ⟨rfl, hafter⟩
    | ok reply =>
      exact ih reply hafter (hread.imp_right fun hnot hmem => hnot (List.mem_cons_of_mem _ hmem))
  | log entry next ih => exact ih h hread

namespace Machine

/-- Two machines whose buses differ under the screen only. -/
structure Alike (low : Nat) (machine machine' : Machine (Ram ⊕ ε)) : Prop where
  core : machine.core = machine'.core
  halted : machine.halted = machine'.halted
  bus : Bus.Alike low machine.bus machine'.bus

section

variable [Device ε] {low : Nat} {machine machine' : Machine (Ram ⊕ ε)}

theorem Alike.step (h : Alike low machine machine') (hlow : 0x3000 ≤ low)
    (hread : 0x3000 < low ∨ (0x2fff, .readWord) ∉ machine.accesses) :
    machine.step.1 = machine'.step.1 ∧ Alike low machine.step.2 machine'.step.2 := by
  cases hm : machine.halted with
  | true =>
    rw [step_of_halted hm, step_of_halted (h.halted.symm.trans hm)]
    exact ⟨rfl, h⟩
  | false =>
    rw [accesses, hm, if_neg (by decide)] at hread
    obtain ⟨hresult, hbus⟩ := BusProgram.eval_of_alike hlow h.bus _ hread
    obtain ⟨hstep, hcore, hhalted⟩ := step_congr h.core h.halted (by rw [hresult, h.core])
    refine ⟨hstep, hcore, hhalted, ?_⟩
    rw [bus_step hm, bus_step (h.halted.symm.trans hm), ← h.core]
    exact hbus

/-- Machines that differ under the screen only still do after a number of steps. -/
theorem Alike.after (h : Alike low machine machine') (hlow : 0x3000 ≤ low) {n : Nat}
    (hread : 0x3000 < low ∨ ∀ k < n, (0x2fff, .readWord) ∉ (machine.after k).accesses) :
    Alike low (machine.after n) (machine'.after n) := by
  induction n with
  | zero => exact h
  | succ n ih =>
    have hbefore := ih (hread.imp_right fun hnot k hk => hnot k (Nat.lt_succ_of_lt hk))
    exact (hbefore.step hlow (hread.imp_right fun hnot => hnot n (Nat.lt_succ_self n))).2

end

end Machine

namespace CommandLine

/-! ## Sessions -/

namespace Session

/-- The machine of a session before its first step. -/
def started (memory : Ram) (screen : Bool) (start : Option Word) : Machine Peripheral :=
  let machine := build memory screen
  { machine with core := machine.core.set .ip (start.getD (machine.core.get .ip)) }

theorem started_bus (memory : Ram) (start : Option Word) :
    (started memory true start).bus = Bus.covered memory ⟨Buffer.unlimited⟩ := rfl

/-- The checks that a session goes through before it is set up. -/
theorem prepare_eq (options : Options) (image : Array Byte) :
    prepare options (.ok image) = do
      let memory ← (Ram.ofImage image Bus.addressSpace).mapError .unusableImage
      let start ← options.start.mapM startAddress
      let limit ← options.maxSteps.mapM number
      return ⟨started memory options.screen start, limit⟩ := rfl

/-- How a session is set up from the content of an image. -/
theorem prepare_eq_ok_iff {options : Options} {image : Array Byte} {session : Session} :
    prepare options (.ok image) = .ok session ↔
      ∃ memory start limit, Ram.ofImage image Bus.addressSpace = .ok memory ∧
        options.start.mapM startAddress = .ok start ∧ options.maxSteps.mapM number = .ok limit ∧
        session = ⟨started memory options.screen start, limit⟩ := by
  rw [prepare_eq]
  generalize Ram.ofImage image Bus.addressSpace = memory
  generalize options.start.mapM startAddress = start
  generalize options.maxSteps.mapM number = limit
  cases memory with
  | error fault => simp [Except.mapError, bind, Except.bind]
  | ok memory =>
    cases start with
    | error failure => simp [Except.mapError, bind, Except.bind]
    | ok start =>
      cases limit with
      | error failure => simp [Except.mapError, bind, Except.bind]
      | ok limit => simp [Except.mapError, bind, Except.bind, pure, Except.pure, eq_comm]

/-- What two machines show of themselves is the same over a number of steps: how each step ends, the
    registers, the counter and the halt flag before and after it, and the output so far. -/
structure SameRun (n : Nat) (session session' : Session) : Prop where
  result : ∀ k < n, (session.machine.after k).step.1 = (session'.machine.after k).step.1
  core : ∀ k ≤ n, (session.machine.after k).core = (session'.machine.after k).core
  halted : ∀ k ≤ n, (session.machine.after k).halted = (session'.machine.after k).halted
  output : ∀ k ≤ n, ({ session with machine := session.machine.after k } : Session).output =
    ({ session' with machine := session'.machine.after k } : Session).output

theorem output_of_alike {low : Nat} {session session' : Session}
    (h : session.machine.Alike low session'.machine) : session.output = session'.output := by
  have hbus := h.bus
  rw [output, output]
  generalize session.machine.bus = bus at hbus
  generalize session'.machine.bus = bus' at hbus
  obtain ⟨cover, -⟩ := hbus
  rfl

end Session

end CommandLine

theorem Ram.ofImage_eq_ok_iff {image : Array Byte} {size : Nat} {ram : Ram} :
    ofImage image size = .ok ram ↔
      image.size ≤ size ∧ ram = ⟨image ++ Array.replicate (size - image.size) 0⟩ := by
  unfold ofImage
  split
  next hle => simp [hle, eq_comm]
  next hle => simp [hle]

/-- The bytes of a memory that begins with an image. -/
theorem Ram.getElem?_of_ofImage {image : Array Byte} {size : Nat} {ram : Ram}
    (h : ofImage image size = .ok ram) (i : Nat) :
    ram.bytes[i]? = if i < image.size then image[i]? else if i < size then some 0 else none := by
  obtain ⟨hle, rfl⟩ := ofImage_eq_ok_iff.mp h
  rw [Array.getElem?_append]
  split
  · rfl
  · rw [Array.getElem?_replicate]
    congr 1
    simp only [eq_iff_iff]
    omega

theorem Ram.agree_of_ofImage {visible : Nat → Prop} {image image' : Array Byte} {size : Nat}
    {ram ram' : Ram} (h : ofImage image size = .ok ram) (h' : ofImage image' size = .ok ram')
    (hsize : image.size = image'.size) (himage : ∀ i, visible i → image[i]? = image'[i]?) :
    ram.Agree visible ram' := by
  refine ⟨(size_of_ofImage h).trans (size_of_ofImage h').symm, fun i hi => ?_⟩
  rw [getElem?_of_ofImage h, getElem?_of_ofImage h', hsize, himage i hi]

namespace CommandLine.Session

/-- Images of one size that differ under the screen only give the same run, if they agree at the first
    address under the screen or the run never reads the word that begins just before it. -/
theorem sameRun_of_prepare {options : Options} {image image' : Array Byte} {session : Session}
    {n : Nat} (hscreen : options.screen = true)
    (hprepare : prepare options (.ok image) = .ok session) (hsize : image.size = image'.size)
    (himage : ∀ i, i < 0x3000 ∨ 0x30ff < i → image[i]? = image'[i]?)
    (hread : image[0x3000]? = image'[0x3000]? ∨
      ∀ k < n, (0x2fff, .readWord) ∉ (session.machine.after k).accesses) :
    ∃ session', prepare options (.ok image') = .ok session' ∧ SameRun n session session' := by
  obtain ⟨memory, start, limit, hmemory, hstart, hlimit, rfl⟩ := prepare_eq_ok_iff.mp hprepare
  have hfits := (Ram.ofImage_eq_ok_iff.mp hmemory).1
  obtain ⟨memory', hmemory'⟩ : ∃ memory', Ram.ofImage image' Bus.addressSpace = .ok memory' :=
    ⟨_, Ram.ofImage_eq_ok_iff.mpr ⟨hsize ▸ hfits, rfl⟩⟩
  refine ⟨_, prepare_eq_ok_iff.mpr ⟨memory', start, limit, hmemory', hstart, hlimit, rfl⟩, ?_⟩
  rw [hscreen] at hread ⊢
  obtain ⟨low, hlow, himage', hread'⟩ : ∃ low, 0x3000 ≤ low ∧
      (∀ i, i < low ∨ 0x30ff < i → image[i]? = image'[i]?) ∧
      (0x3000 < low ∨
        ∀ k < n, (0x2fff, .readWord) ∉ ((started memory true start).after k).accesses) := by
    -- the first byte under the screen counts as visible if the images agree in it
    rcases hread with hfirst | hread
    · refine ⟨0x3001, by decide, fun i hi => ?_, Or.inl (by decide)⟩
      by_cases hi' : i = 0x3000
      · rw [hi', hfirst]
      · exact himage i (by omega)
    · exact ⟨0x3000, Nat.le_refl _, himage, Or.inr hread⟩
  have hstarted : (started memory true start).Alike low (started memory' true start) := by
    refine ⟨rfl, rfl, ?_⟩
    rw [started_bus, started_bus]
    exact .intro _ (Ram.agree_of_ofImage hmemory hmemory' hsize himage')
  have halike : ∀ k ≤ n, ((started memory true start).after k).Alike low
      ((started memory' true start).after k) := fun k hk =>
    hstarted.after hlow (hread'.imp_right fun hnot j hj => hnot j (Nat.lt_of_lt_of_le hj hk))
  constructor
  case result =>
    exact fun k hk => ((halike k (Nat.le_of_lt hk)).step hlow (hread'.imp_right (· k hk))).1
  case core => exact fun k hk => (halike k hk).core
  case halted => exact fun k hk => (halike k hk).halted
  case output => exact fun k hk => output_of_alike (halike k hk)

end CommandLine.Session

/-! ## The byte that shows -/

section

variable [Device ε] {ram : Ram} {cover : ε} {a : Word}

theorem Bus.covered_readByte (h : ¬OnScreen a) {byte : Byte}
    (hbyte : ram.bytes[a.toNat]? = some byte) :
    (covered ram cover).answer a .readByte = (.ok byte, covered ram cover) := by
  rw [covered_answer h]
  change (ram.readByte a, _) = _
  rw [Ram.readByte_eq, hbyte]
  rfl

theorem Bus.covered_readWord (h : ¬OnScreen a) {high low : Byte}
    (hhigh : ram.bytes[a.toNat]? = some high) (hlow : ram.bytes[a.toNat + 1]? = some low) :
    (covered ram cover).answer a .readWord = (.ok (Word.ofBytes high low), covered ram cover) := by
  rw [covered_answer h]
  change (ram.readWord a, _) = _
  rw [Ram.readWord_eq, hhigh, hlow]
  rfl

/-- A program that loads the word just before the screen into a register. -/
def loadAndHalt : Array Byte := #[0x13, 0x2f, 0xff, 0x02, 0xff]

/-- A machine that loads the word just before the screen has the first byte under it in a register
    then. -/
theorem Machine.get_r1_of_load {machine : Machine (Ram ⊕ ε)} (hm : machine.halted = false)
    (hip : machine.core.get .ip = 0) (hbus : machine.bus = Bus.covered ram cover)
    (hprogram : ∀ i < 5, ram.bytes[i]? = loadAndHalt[i]?) {high low : Byte}
    (hhigh : ram.bytes[0x2fff]? = some high) (hlow : ram.bytes[0x3000]? = some low) :
    machine.step.2.core.get .r1 = Word.ofBytes high low := by
  have hcell : ∀ i < 5, ∀ byte, loadAndHalt[i]? = some byte →
      ram.bytes[i]? = some byte := fun i hi byte hbyte => (hprogram i hi).trans hbyte
  have hopcode := @Bus.covered_readByte ε _ ram cover 0 (by decide) 0x13 (hcell 0 (by decide) _ rfl)
  have hsource := @Bus.covered_readWord ε _ ram cover 1 (by decide) 0x2f 0xff
    (hcell 1 (by decide) _ rfl) (hcell 2 (by decide) _ rfl)
  have htarget := @Bus.covered_readByte ε _ ram cover 3 (by decide) 0x02 (hcell 3 (by decide) _ rfl)
  have hword := @Bus.covered_readWord ε _ ram cover 0x2fff (by decide) high low hhigh hlow
  rw [← hbus] at hopcode hsource htarget hword
  have hfetch : Microcode.fetchInstruction.Completes machine.core machine.bus
      (.load 0x2fff .r1) (machine.core.advanced 4) machine.bus := by
    refine Microcode.completes_bind.mpr ⟨0x13, machine.core.advanced 1, machine.bus,
      Microcode.fetchByte_completes_iff.mpr ⟨?_, rfl⟩, ?_⟩
    · rw [hip]
      exact hopcode
    change (Microcode.decode .load).Completes _ _ _ _ _
    refine Microcode.completes_bind.mpr ⟨0x2fff, machine.core.advanced 3, machine.bus,
      Microcode.fetchWord_completes_iff.mpr ⟨?_, by rw [Core.advanced_advanced]; rfl⟩, ?_⟩
    · rw [Core.get_advanced, if_pos rfl, hip]
      exact hsource
    refine Microcode.completes_bind.mpr ⟨.r1, machine.core.advanced 4, machine.bus,
      Microcode.completes_map.mpr ⟨0x02, Microcode.fetchByte_completes_iff.mpr
        ⟨?_, by rw [Core.advanced_advanced]; rfl⟩, rfl⟩, Microcode.completes_pure.mpr ⟨rfl, rfl, rfl⟩⟩
    rw [Core.get_advanced, if_pos rfl, hip]
    exact htarget
  have hperform : (Microcode.perform (machine.core.get .ip) (.load 0x2fff .r1)).Completes
      (machine.core.advanced 4) machine.bus ()
      ((machine.core.advanced 4).set .r1 (Word.ofBytes high low)) machine.bus :=
    Microcode.completes_access_bind.mpr ⟨_, _, hword, Microcode.completes_set.mpr ⟨rfl, rfl⟩⟩
  rw [(step_of_performs hm hfetch hperform).2.1, Core.get_set, if_pos rfl]

end

namespace CommandLine.Session

/-- Options that map the screen and ask for nothing else. -/
def plain : Options := ⟨"image", none, none, true, false⟩

/-- An image of the program with a value at some other address. -/
def spy (address : Nat) (value : Byte) : Array Byte :=
  Array.ofFn fun i : Fin 0x3100 =>
    if i.val = address then value else loadAndHalt.getD i.val 0

theorem size_spy (address : Nat) (value : Byte) : (spy address value).size = 0x3100 :=
  Array.size_ofFn

theorem getElem?_spy (address : Nat) (value : Byte) {i : Nat} (hi : i < 0x3100) :
    (spy address value)[i]? =
      some (if i = address then value else loadAndHalt.getD i 0) := by
  rw [spy, Array.getElem?_ofFn, dif_pos hi]

theorem getElem?_spy_congr {address : Nat} (value value' : Byte) {i : Nat} (hi : i ≠ address) :
    (spy address value)[i]? = (spy address value')[i]? := by
  by_cases hlt : i < 0x3100
  · rw [getElem?_spy _ _ hlt, getElem?_spy _ _ hlt, if_neg hi, if_neg hi]
  · rw [Array.getElem?_eq_none (by rw [size_spy]; omega),
      Array.getElem?_eq_none (by rw [size_spy]; omega)]

theorem exists_prepare_spy (address : Nat) (value : Byte) :
    ∃ session, prepare plain (.ok (spy address value)) = .ok session := by
  have hfits : (spy address value).size ≤ Bus.addressSpace := by
    rw [size_spy]
    decide
  exact ⟨_, prepare_eq_ok_iff.mpr
    ⟨_, none, none, Ram.ofImage_eq_ok_iff.mpr ⟨hfits, rfl⟩, rfl, rfl, rfl⟩⟩

/-- An image that differs in a later byte under the screen gives the same run. -/
theorem sameRun_of_spy :
    ∃ session session', prepare plain (.ok (spy 0x3001 0)) = .ok session ∧
      prepare plain (.ok (spy 0x3001 1)) = .ok session' ∧ SameRun 8 session session' := by
  obtain ⟨session, hprepare⟩ := exists_prepare_spy 0x3001 0
  obtain ⟨session', hprepare', hsame⟩ := @sameRun_of_prepare plain _ (spy 0x3001 1) session 8 rfl
    hprepare (by rw [size_spy, size_spy]) (fun i hi => getElem?_spy_congr 0 1 (by omega))
    (Or.inl (getElem?_spy_congr 0 1 (by decide)))
  exact ⟨session, session', hprepare, hprepare', hsame⟩

theorem get_r1_of_prepare_spy {value : Byte} {session : Session}
    (h : prepare plain (.ok (spy 0x3000 value)) = .ok session) :
    (session.machine.after 1).core.get .r1 = Word.ofBytes 0 value := by
  obtain ⟨memory, start, limit, hmemory, hstart, -, hsession⟩ := prepare_eq_ok_iff.mp h
  obtain rfl : none = start := Except.ok.inj hstart
  have hmachine : session.machine = started memory true none := by
    rw [hsession]
    rfl
  have hbytes : ∀ i < 0x3100, memory.bytes[i]? =
      some (if i = 0x3000 then value else loadAndHalt.getD i 0) := by
    intro i hi
    rw [Ram.getElem?_of_ofImage hmemory, if_pos (by rwa [size_spy]), getElem?_spy _ _ hi]
  have hprogram : ∀ i < 5, memory.bytes[i]? = loadAndHalt[i]? := by
    intro i hi
    rw [hbytes i (by omega), if_neg (by omega)]
    match i, hi with
    | 0, _ => rfl
    | 1, _ => rfl
    | 2, _ => rfl
    | 3, _ => rfl
    | 4, _ => rfl
  have hhigh : memory.bytes[0x2fff]? = some 0 := by
    rw [hbytes _ (by decide), if_neg (by decide)]
    simp [loadAndHalt]
  have hlow : memory.bytes[0x3000]? = some value := by
    rw [hbytes _ (by decide), if_pos rfl]
  have hip : session.machine.core.get .ip = 0 := by
    rw [hmachine]
    change (Core.initial.set .ip (Core.initial.get .ip)).get .ip = 0
    decide
  have hhalted : session.machine.halted = false := by
    rw [hmachine]
    rfl
  have hbus : session.machine.bus = Bus.covered memory ⟨Buffer.unlimited⟩ := by
    rw [hmachine, started_bus]
  exact Machine.get_r1_of_load hhalted hip hbus hprogram hhigh hlow

/-- A program can find out the first byte under the screen. -/
theorem not_sameRun_of_prepare :
    ¬∀ (options : Options) (image image' : Array Byte) (session : Session) (n : Nat),
      options.screen = true → prepare options (.ok image) = .ok session →
      image.size = image'.size →
      (∀ i, i < 0x3000 ∨ 0x30ff < i → image[i]? = image'[i]?) →
      ∃ session', prepare options (.ok image') = .ok session' ∧ SameRun n session session' := by
  intro h
  obtain ⟨session, hprepare⟩ := exists_prepare_spy 0x3000 0
  obtain ⟨session', hprepare', hsame⟩ := h plain _ (spy 0x3000 1) session 1 rfl hprepare
    (by rw [size_spy, size_spy]) fun i hi => getElem?_spy_congr 0 1 (by omega)
  have hcore := hsame.core 1 (Nat.le_refl 1)
  have hr1 := get_r1_of_prepare_spy hprepare
  rw [hcore, get_r1_of_prepare_spy hprepare'] at hr1
  exact absurd hr1 (by decide)

end CommandLine.Session

end WordMachine
