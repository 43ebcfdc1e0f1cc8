import Mathlib.Data.List.Induction
import WordMachine.Bus
import WordMachine.Device.Ram

/-!
# Regions over time

The regions of a bus after any number of devices were put on it and taken off it, and the region
that answers at an address. Regions are numbered in the order in which they were mapped, and numbers
are not used again, so that the newest of some regions is the one with the largest number.

* `mem_history_iff`: the regions are those that were mapped and not taken off since.
* `owns_iff`: the owner of an address is the newest region that covers it.
* `answer_of_owns`, `deviceCalls_of_owns`: an access is one call to the device of the owner.
* `unmap_eq_some_iff`: what taking a region off does.
* `resolves_history`: all of this for any sequence of changes.
-/

namespace WordMachine

variable {δ ε : Type}

namespace Region

/-- A region with another device. -/
def withDevice (region : Region δ) (device : ε) : Region ε :=
  ⟨region.id, region.first, region.last, region.remap, device⟩

@[simp] theorem id_withDevice (region : Region δ) (device : ε) :
    (region.withDevice device).id = region.id := rfl

@[simp] theorem device_withDevice (region : Region δ) (device : ε) :
    (region.withDevice device).device = device := rfl

@[simp] theorem contains_withDevice (region : Region δ) (device : ε) :
    (region.withDevice device).contains = region.contains := rfl

@[simp] theorem localAddress_withDevice (region : Region δ) (device : ε) :
    (region.withDevice device).localAddress = region.localAddress := rfl

theorem contains_iff {region : Region δ} {address : Word} :
    region.contains address ↔ region.first ≤ address ∧ address ≤ region.last := by
  simp [contains]

/-! ## The newest region -/

/-- A region is the newest one of a list that covers an address. -/
structure Newest (regions : List (Region δ)) (region : Region δ) (address : Word) : Prop where
  mem : region ∈ regions
  first_le : region.first ≤ address
  le_last : address ≤ region.last
  id_le : ∀ other ∈ regions, other.first ≤ address → address ≤ other.last → other.id ≤ region.id

theorem Newest.contains {regions : List (Region δ)} {region : Region δ} {address : Word}
    (h : Newest regions region address) : region.contains address :=
  contains_iff.mpr ⟨h.first_le, h.le_last⟩

/-- The regions of a list are numbered, the first one with the largest number. -/
def Decreasing (regions : List (Region δ)) : Prop :=
  regions.Pairwise fun newer older => older.id < newer.id

theorem Decreasing.eq_of_id_eq {regions : List (Region δ)} (h : Decreasing regions)
    {r s : Region δ} (hr : r ∈ regions) (hs : s ∈ regions) (hid : r.id = s.id) : r = s := by
  induction regions with
  | nil => cases hr
  | cons newest older ih =>
    obtain ⟨hlt, holder⟩ := List.pairwise_cons.mp h
    rcases List.mem_cons.mp hr with heq | hr'
    · rcases List.mem_cons.mp hs with heq' | hs'
      · exact heq.trans heq'.symm
      · have := hlt s hs'
        rw [← heq] at this
        omega
    · rcases List.mem_cons.mp hs with heq' | hs'
      · have := hlt r hr'
        rw [← heq'] at this
        omega
      · exact ih holder hr' hs'

/-- The first region that covers an address is the newest one. -/
theorem newest_of_find? {regions : List (Region δ)} (h : Decreasing regions) {region : Region δ}
    {address : Word} (hfind : regions.find? (·.contains address) = some region) :
    Newest regions region address := by
  obtain ⟨hcontains, newer, older, rfl, hnewer⟩ := List.find?_eq_some_iff_append.mp hfind
  obtain ⟨hfirst, hlast⟩ := contains_iff.mp hcontains
  refine ⟨by simp, hfirst, hlast, fun other hother hfirst' hlast' => ?_⟩
  obtain ⟨-, hpair, -⟩ := List.pairwise_append.mp h
  rcases List.mem_append.mp hother with hmem | hmem
  · have hcovers : other.contains address := contains_iff.mpr ⟨hfirst', hlast'⟩
    have hnot := hnewer other hmem
    rw [hcovers] at hnot
    cases hnot
  · rcases List.mem_cons.mp hmem with rfl | hmem
    · exact Nat.le_refl _
    · exact Nat.le_of_lt ((List.pairwise_cons.mp hpair).1 other hmem)

theorem find?_eq_some_iff {regions : List (Region δ)} (h : Decreasing regions)
    {region : Region δ} {address : Word} :
    regions.find? (·.contains address) = some region ↔ Newest regions region address := by
  refine ⟨newest_of_find? h, fun hnewest => ?_⟩
  cases hfind : regions.find? (·.contains address) with
  | none => exact absurd hnewest.contains (List.find?_eq_none.mp hfind region hnewest.mem)
  | some found =>
    have hfound := newest_of_find? h hfind
    have hle := hnewest.id_le found hfound.mem hfound.first_le hfound.le_last
    have hge := hfound.id_le region hnewest.mem hnewest.first_le hnewest.le_last
    rw [h.eq_of_id_eq hfound.mem hnewest.mem (Nat.le_antisymm hle hge)]

/-- Without the newest region that covers an address the next newest one does. A region that is not
    the newest one makes no difference. -/
theorem newest_filter_of_ne {regions : List (Region δ)} (h : Decreasing regions) {id : Nat}
    {address : Word} {newest : Region δ} (hnewest : Newest regions newest address)
    (hne : newest.id ≠ id) (region : Region δ) :
    Newest (regions.filter (·.id ≠ id)) region address ↔ region = newest := by
  have hkeeps : Newest (regions.filter (·.id ≠ id)) newest address :=
    ⟨List.mem_filter.mpr ⟨hnewest.mem, by simpa using hne⟩, hnewest.first_le, hnewest.le_last,
      fun other hother => hnewest.id_le other (List.mem_filter.mp hother).1⟩
  constructor
  · intro hregion
    have hle := hkeeps.id_le region hregion.mem hregion.first_le hregion.le_last
    have hge := hregion.id_le newest hkeeps.mem hkeeps.first_le hkeeps.le_last
    exact h.eq_of_id_eq (List.mem_filter.mp hregion.mem).1 hnewest.mem (Nat.le_antisymm hle hge)
  · rintro rfl
    exact hkeeps

/-! ## The answer of a region among others -/

theorem answerFirst_append [Device δ] {newer older : List (Region δ)} {region : Region δ}
    {address : Word} (hnewer : ∀ r ∈ newer, r.contains address = false)
    (h : region.contains address) (request : Request) :
    answerFirst address request (newer ++ region :: older) =
      ((Device.answer region.device (region.localAddress address) request).1,
        newer ++ region.withDevice
          (Device.answer region.device (region.localAddress address) request).2 :: older) := by
  induction newer with
  | nil =>
    rw [List.nil_append, answerFirst, if_pos h]
    rfl
  | cons r newer ih =>
    have hr : r.contains address = false := hnewer r List.mem_cons_self
    rw [List.cons_append, answerFirst, hr, if_neg (by decide),
      ih fun s hs => hnewer s (List.mem_cons_of_mem _ hs)]
    rfl

end Region

/-! ## Devices with a record of their calls -/

/-- A device and the calls that were made to it, the oldest first. -/
structure Recorded (δ : Type) where
  device : δ
  calls : List (Word × Request)

instance [Device δ] : Device (Recorded δ) where
  answer recorded address request :=
    match Device.answer recorded.device address request with
    | (reply, device) => (reply, ⟨device, recorded.calls ++ [(address, request)]⟩)

namespace Bus

/-! ## Owners -/

/-- A region is the newest one on a bus that covers an address. -/
def Owns (bus : Bus δ) (region : Region δ) (address : Word) : Prop :=
  Region.Newest bus.regions region address

/-- The regions of a bus are numbered in the order in which they were mapped. -/
structure Ordered (bus : Bus δ) : Prop where
  decreasing : Region.Decreasing bus.regions
  id_lt : ∀ region ∈ bus.regions, region.id < bus.nextId

/-- The bus with another device in the region of the given number. -/
def replace (bus : Bus δ) (id : Nat) (device : δ) : Bus δ :=
  ⟨bus.regions.map fun r => if r.id = id then r.withDevice device else r, bus.nextId⟩

/-- The bus with a record of calls in every device, which is empty so far. -/
def recording (bus : Bus δ) : Bus (Recorded δ) :=
  ⟨bus.regions.map fun r => r.withDevice ⟨r.device, []⟩, bus.nextId⟩

/-- All calls in the records of the devices, each with the number of the region. -/
def recordedCalls (bus : Bus (Recorded δ)) : List (Nat × Word × Request) :=
  bus.regions.flatMap fun r => r.device.calls.map (r.id, ·)

/-- The calls to devices that an access makes, each with the number of the region. -/
def deviceCalls [Device δ] (bus : Bus δ) (address : Word) (request : Request) :
    List (Nat × Word × Request) :=
  (bus.recording.answer address request).2.recordedCalls

section

variable {bus : Bus δ} {region : Region δ} {address : Word}

theorem owns_iff (h : bus.Ordered) : bus.owner address = some region ↔ bus.Owns region address :=
  Region.find?_eq_some_iff h.decreasing

theorem owner_eq_none_iff :
    bus.owner address = none ↔
      ∀ region ∈ bus.regions, ¬(region.first ≤ address ∧ address ≤ region.last) := by
  simp only [owner, List.find?_eq_none, Region.contains_iff]

/-- The owner of an address covers it, and no region in front of it does. -/
theorem split_of_owner (h : bus.owner address = some region) :
    region.contains address ∧ ∃ newer older, bus.regions = newer ++ region :: older ∧
      ∀ r ∈ newer, r.contains address = false := by
  obtain ⟨hcontains, newer, older, hregions, hnewer⟩ := List.find?_eq_some_iff_append.mp h
  exact ⟨hcontains, newer, older, hregions, fun r hr => by simpa using hnewer r hr⟩

section

variable [Device δ]

theorem answer_of_split {newer older : List (Region δ)}
    (hregions : bus.regions = newer ++ region :: older)
    (hnewer : ∀ r ∈ newer, r.contains address = false) (h : region.contains address)
    (request : Request) :
    bus.answer address request =
      ((Device.answer region.device (region.localAddress address) request).1,
        ⟨newer ++ region.withDevice
          (Device.answer region.device (region.localAddress address) request).2 :: older,
          bus.nextId⟩) := by
  obtain ⟨regions, nextId⟩ := bus
  obtain rfl : regions = newer ++ region :: older := hregions
  rw [answer, Region.answerFirst_append hnewer h]

/-- An access is that of the owner, and only the device of the owner is another one after it. -/
theorem answer_of_owner (h : bus.owner address = some region) (request : Request) :
    ∃ newer older, bus.regions = newer ++ region :: older ∧
      bus.answer address request =
        ((Device.answer region.device (region.localAddress address) request).1,
          ⟨newer ++ region.withDevice
            (Device.answer region.device (region.localAddress address) request).2 :: older,
            bus.nextId⟩) := by
  obtain ⟨hcontains, newer, older, hregions, hnewer⟩ := split_of_owner h
  exact ⟨newer, older, hregions, answer_of_split hregions hnewer hcontains request⟩

/-- An access that leaves the device of the owner as it is leaves the bus as it is. -/
theorem answer_of_device_eq (h : bus.owner address = some region) {request : Request}
    (hdevice : (Device.answer region.device (region.localAddress address) request).2 =
      region.device) : (bus.answer address request).2 = bus := by
  obtain ⟨newer, older, hregions, hanswer⟩ := answer_of_owner h request
  rw [hanswer, hdevice]
  change (⟨newer ++ region :: older, bus.nextId⟩ : Bus δ) = bus
  rw [← hregions]

/-- The owner of an accessed address still owns its other addresses. -/
theorem owner_answer_of_eq {other : Word} (h : bus.owner address = some region)
    (hother : bus.owner other = some region) (request : Request) :
    (bus.answer address request).2.owner other = some (region.withDevice
      (Device.answer region.device (region.localAddress address) request).2) := by
  obtain ⟨hcontains, newer, older, hregions, hnewer⟩ := split_of_owner h
  have hcontains' : region.contains other := (split_of_owner hother).1
  have hskip : newer.find? (·.contains other) = none := by
    rw [owner, hregions, List.find?_append] at hother
    cases hfind : newer.find? (·.contains other) with
    | none => rfl
    | some found =>
      -- the owner of the other address would not cover the accessed one
      rw [hfind] at hother
      obtain rfl : found = region := Option.some.inj hother
      have hnot := hnewer found (List.mem_of_find?_eq_some hfind)
      rw [hcontains] at hnot
      cases hnot
  rw [answer_of_split hregions hnewer hcontains, owner, List.find?_append, hskip, Option.none_or]
  exact List.find?_cons_of_pos hcontains'

/-- An access changes nothing at the addresses of other owners. -/
theorem owner_answer_of_ne {other : Word} (h : bus.owner other ≠ bus.owner address)
    (request : Request) : (bus.answer address request).2.owner other = bus.owner other := by
  cases howner : bus.owner address with
  | none => rw [answer_of_owner_eq_none howner]
  | some region =>
    obtain ⟨newer, older, hregions, hanswer⟩ := answer_of_owner howner request
    rw [howner, owner, hregions, List.find?_append] at h
    rw [hanswer, owner, owner, hregions, List.find?_append, List.find?_append]
    cases hfind : newer.find? (·.contains other) with
    | some found => rfl
    | none =>
      rw [hfind, Option.none_or] at h
      rw [Option.none_or, Option.none_or]
      cases hcontains : region.contains other with
      | true =>
        rw [List.find?_cons, hcontains] at h
        exact absurd rfl h
      | false =>
        rw [List.find?_cons, List.find?_cons, Region.contains_withDevice, hcontains]

/-- A second access to the same region finds the device as the first one has left it. -/
theorem answer_answer_of_eq {other : Word} (h : bus.owner address = some region)
    (hother : bus.owner other = some region) (request query : Request) :
    ((bus.answer address request).2.answer other query).1 =
      (Device.answer (Device.answer region.device (region.localAddress address) request).2
        (region.localAddress other) query).1 :=
  answer_of_owner_eq_some (owner_answer_of_eq h hother request) query

/-- An access to another region is not affected by one before it. -/
theorem answer_answer_of_ne {other : Word} (h : bus.owner other ≠ bus.owner address)
    (request query : Request) :
    ((bus.answer address request).2.answer other query).1 = (bus.answer other query).1 := by
  have howner := owner_answer_of_ne h request
  cases hother : bus.owner other with
  | none =>
    rw [hother] at howner
    rw [answer_of_owner_eq_none howner, answer_of_owner_eq_none hother]
  | some region =>
    rw [hother] at howner
    rw [answer_of_owner_eq_some howner, answer_of_owner_eq_some hother]

/-- An access gives the answer of the owner and changes no device but that of the owner. -/
theorem answer_of_owns (h : bus.Ordered) (howns : bus.Owns region address) (request : Request) :
    bus.answer address request =
      ((Device.answer region.device (region.localAddress address) request).1,
        bus.replace region.id
          (Device.answer region.device (region.localAddress address) request).2) := by
  obtain ⟨hcontains, newer, older, hregions, hnewer⟩ := split_of_owner ((owns_iff h).mpr howns)
  rw [answer_of_split hregions hnewer hcontains, replace, hregions]
  have hdecreasing := h.decreasing
  rw [hregions] at hdecreasing
  obtain ⟨-, hpair, hcross⟩ := List.pairwise_append.mp hdecreasing
  have hkeep : ∀ (l : List (Region δ)) (device : δ), (∀ r ∈ l, r.id ≠ region.id) →
      l.map (fun r => if r.id = region.id then r.withDevice device else r) = l := by
    intro l device hl
    calc l.map (fun r => if r.id = region.id then r.withDevice device else r)
        = l.map id := List.map_congr_left fun r hr => if_neg (hl r hr)
      _ = l := List.map_id l
  rw [List.map_append, List.map_cons, if_pos rfl, hkeep newer, hkeep older]
  · intro r hr
    exact Nat.ne_of_lt ((List.pairwise_cons.mp hpair).1 r hr)
  · intro r hr
    exact Nat.ne_of_gt (hcross r hr region List.mem_cons_self)

/-- An access makes one call, to the device of the owner. -/
theorem deviceCalls_of_owns (h : bus.Ordered) (howns : bus.Owns region address)
    (request : Request) :
    bus.deviceCalls address request = [(region.id, region.localAddress address, request)] := by
  obtain ⟨hcontains, newer, older, hregions, hnewer⟩ := split_of_owner ((owns_iff h).mpr howns)
  have hsilent : ∀ l : List (Region δ),
      ((l.map fun r => r.withDevice (⟨r.device, []⟩ : Recorded δ)).flatMap fun r =>
        r.device.calls.map (r.id, ·)) = [] := by
    intro l
    rw [List.flatMap_map]
    exact List.flatMap_eq_nil_iff.mpr fun r _ => rfl
  have hrecording : bus.recording.regions =
      (newer.map fun r => r.withDevice ⟨r.device, []⟩) ++
        region.withDevice (⟨region.device, []⟩ : Recorded δ) ::
          (older.map fun r => r.withDevice ⟨r.device, []⟩) := by
    rw [recording, hregions, List.map_append, List.map_cons]
  rw [deviceCalls, answer_of_split hrecording (by simpa using hnewer) hcontains, recordedCalls,
    List.flatMap_append, List.flatMap_cons, hsilent, hsilent]
  rfl

/-- An access at an address that nobody owns makes no call. -/
theorem deviceCalls_of_owner_eq_none (h : bus.owner address = none) (request : Request) :
    bus.deviceCalls address request = [] := by
  have hnone : bus.recording.owner address = none := by
    rw [owner_eq_none_iff] at h ⊢
    intro r hr
    obtain ⟨s, hs, rfl⟩ := List.mem_map.mp hr
    exact h s hs
  rw [deviceCalls, answer_of_owner_eq_none hnone, recordedCalls, recording, List.flatMap_map]
  exact List.flatMap_eq_nil_iff.mpr fun r _ => rfl

end

/-! ## Taking a region off -/

theorem eraseP_eq_filter {regions : List (Region δ)} (h : Region.Decreasing regions) (id : Nat) :
    regions.eraseP (·.id == id) = regions.filter (·.id ≠ id) := by
  induction regions with
  | nil => rfl
  | cons newest older ih =>
    obtain ⟨hlt, holder⟩ := List.pairwise_cons.mp h
    by_cases hid : newest.id = id
    · have hkeep : older.filter (·.id ≠ id) = older := by
        refine List.filter_eq_self.mpr fun r hr => ?_
        have := hlt r hr
        simp only [decide_eq_true_eq]
        omega
      rw [List.eraseP_cons_of_pos (by simpa using hid), List.filter_cons_of_neg (by simpa using hid),
        hkeep]
    · rw [List.eraseP_cons_of_neg (by simpa using hid), List.filter_cons_of_pos (by simpa using hid),
        ih holder]

/-- A region that is there is taken off, and its device is handed back. -/
theorem unmap_eq_some_iff (h : bus.Ordered) {id : Nat} {device : δ} {bus' : Bus δ} :
    bus.unmap id = some (device, bus') ↔
      (∃ region ∈ bus.regions, region.id = id ∧ region.device = device) ∧
        bus' = ⟨bus.regions.filter (·.id ≠ id), bus.nextId⟩ := by
  unfold unmap
  rw [eraseP_eq_filter h.decreasing]
  cases hfind : bus.regions.find? (·.id == id) with
  | none =>
    have hnone := List.find?_eq_none.mp hfind
    constructor
    · intro hunmap
      cases hunmap
    · rintro ⟨⟨region, hmem, hid, -⟩, -⟩
      exact absurd (beq_iff_eq.mpr hid) (hnone region hmem)
  | some found =>
    have hmem := List.mem_of_find?_eq_some hfind
    have hid : found.id = id := by simpa using List.find?_some hfind
    constructor
    · intro hunmap
      cases hunmap
      exact ⟨⟨found, hmem, hid, rfl⟩, rfl⟩
    · rintro ⟨⟨region, hregion, hid', rfl⟩, rfl⟩
      rw [h.decreasing.eq_of_id_eq hregion hmem (hid'.trans hid.symm)]

theorem unmap_eq_none_iff {id : Nat} :
    bus.unmap id = none ↔ ∀ region ∈ bus.regions, region.id ≠ id := by
  unfold unmap
  cases hfind : bus.regions.find? (·.id == id) with
  | none => simpa using List.find?_eq_none.mp hfind
  | some found =>
    have hid : found.id = id := by simpa using List.find?_some hfind
    simp only [reduceCtorEq, false_iff, not_forall, not_not]
    exact ⟨found, List.mem_of_find?_eq_some hfind, hid⟩

end

/-! ## Order -/

theorem ordered_empty : (empty : Bus δ).Ordered :=
  ⟨List.Pairwise.nil, fun _ h => nomatch h⟩

theorem Ordered.map {bus : Bus δ} (h : bus.Ordered) (device : δ) (first last : Word)
    (remap : Bool) : (bus.map device first last remap).Ordered := by
  refine ⟨List.pairwise_cons.mpr ⟨fun r hr => h.id_lt r hr, h.decreasing⟩, fun r hr => ?_⟩
  rcases List.mem_cons.mp hr with rfl | hr
  · exact Nat.lt_succ_self _
  · exact Nat.lt_succ_of_lt (h.id_lt r hr)

theorem Ordered.unmap {bus bus' : Bus δ} (h : bus.Ordered) {id : Nat} {device : δ}
    (hunmap : bus.unmap id = some (device, bus')) : bus'.Ordered := by
  obtain ⟨-, rfl⟩ := (unmap_eq_some_iff h).mp hunmap
  exact ⟨List.Pairwise.filter _ h.decreasing, fun r hr => h.id_lt r (List.mem_filter.mp hr).1⟩

/-! ## Histories -/

/-- A change of the regions of a bus. -/
inductive Change (δ : Type) where
  /-- a device is put over a range of addresses -/
  | map (device : δ) (first last : Word) (remap : Bool)
  /-- the device of the region with the given number is taken off -/
  | unmap (id : Nat)

/-- Whether a change adds a region. -/
def Change.isMap : Change δ → Bool
  | .map .. => true
  | .unmap _ => false

/-- The bus after a change. A number that no region has changes nothing. -/
def change (bus : Bus δ) : Change δ → Bus δ
  | .map device first last remap => bus.map device first last remap
  | .unmap id =>
    match bus.unmap id with
    | some (_, bus) => bus
    | none => bus

/-- The bus after changes one after the other, from the empty one on. -/
def history (changes : List (Change δ)) : Bus δ := changes.foldl change empty

/-- A region was mapped by one of the changes, with the number of those before it that map a region
    for its number, and no later change takes it off. -/
def Live (changes : List (Change δ)) (region : Region δ) : Prop :=
  ∃ before after,
    changes = before ++ .map region.device region.first region.last region.remap :: after ∧
      region.id = before.countP Change.isMap ∧ .unmap region.id ∉ after

theorem history_append (changes : List (Change δ)) (c : Change δ) :
    history (changes ++ [c]) = (history changes).change c := by
  rw [history, List.foldl_append]
  rfl

theorem ordered_change {bus : Bus δ} (h : bus.Ordered) (c : Change δ) : (bus.change c).Ordered := by
  cases c with
  | map device first last remap => exact h.map device first last remap
  | unmap id =>
    rw [change]
    split
    next hunmap => exact h.unmap hunmap
    next => exact h

theorem ordered_history (changes : List (Change δ)) : (history changes).Ordered := by
  induction changes using List.reverseRecOn with
  | nil => exact ordered_empty
  | append_singleton changes c ih =>
    rw [history_append]
    exact ordered_change ih c

/-- The last of some changes is the one that has mapped a region, or it comes after it. -/
theorem live_append_iff {changes : List (Change δ)} {c : Change δ} {region : Region δ} :
    Live (changes ++ [c]) region ↔
      (c = .map region.device region.first region.last region.remap ∧
        region.id = changes.countP Change.isMap) ∨ (Live changes region ∧ c ≠ .unmap region.id) := by
  constructor
  · rintro ⟨before, after, heq, hid, hafter⟩
    rcases List.eq_nil_or_concat after with rfl | ⟨rest, c', rfl⟩
    · obtain ⟨rfl, hc⟩ := List.append_inj' heq rfl
      cases hc
      exact Or.inl ⟨rfl, hid⟩
    · rw [List.concat_eq_append, ← List.cons_append, ← List.append_assoc] at heq
      obtain ⟨rfl, hc⟩ := List.append_inj' heq rfl
      cases hc
      rw [List.concat_eq_append, List.mem_append, not_or, List.mem_singleton] at hafter
      exact Or.inr ⟨⟨before, rest, rfl, hid, hafter.1⟩, Ne.symm hafter.2⟩
  · rintro (⟨rfl, hid⟩ | ⟨⟨before, after, rfl, hid, hafter⟩, hc⟩)
    · exact ⟨changes, [], rfl, hid, List.not_mem_nil⟩
    · refine ⟨before, after ++ [c], by simp, hid, ?_⟩
      rw [List.mem_append, not_or, List.mem_singleton]
      exact ⟨hafter, Ne.symm hc⟩

theorem nextId_history (changes : List (Change δ)) :
    (history changes).nextId = changes.countP Change.isMap := by
  induction changes using List.reverseRecOn with
  | nil => rfl
  | append_singleton changes c ih =>
    rw [history_append, List.countP_append, ← ih]
    cases c with
    | map device first last remap => rfl
    | unmap id =>
      rw [change]
      split
      next hunmap =>
        obtain ⟨-, rfl⟩ := (unmap_eq_some_iff (ordered_history changes)).mp hunmap
        rfl
      next => rfl

/-- The regions of a bus are those that were mapped and not taken off since. -/
theorem mem_history_iff {changes : List (Change δ)} {region : Region δ} :
    region ∈ (history changes).regions ↔ Live changes region := by
  induction changes using List.reverseRecOn with
  | nil =>
    constructor
    · intro h
      cases h
    · rintro ⟨before, after, h, -⟩
      exact absurd h (by simp)
  | append_singleton changes c ih =>
    rw [history_append, live_append_iff, ← ih, ← nextId_history]
    cases c with
    | map device first last remap =>
      obtain ⟨id, first', last', remap', device'⟩ := region
      rw [change, map, List.mem_cons, Region.mk.injEq, Change.map.injEq]
      grind
    | unmap id =>
      simp only [reduceCtorEq, false_and, false_or, ne_eq, Change.unmap.injEq]
      rw [change]
      split
      next hunmap =>
        obtain ⟨-, rfl⟩ := (unmap_eq_some_iff (ordered_history changes)).mp hunmap
        rw [List.mem_filter, decide_eq_true_eq]
        exact and_congr_right fun _ => ne_comm
      next hnone =>
        have hne := unmap_eq_none_iff.mp hnone
        exact ⟨fun h => ⟨h, Ne.symm (hne region h)⟩, And.left⟩

/-! ## Resolution -/

/-- An access at an address that a region owns is one call to the device of this region, which gives
    the answer. All other devices are left alone. -/
structure AnsweredBy [Device δ] (bus : Bus δ) (region : Region δ) (address : Word)
    (request : Request) : Prop where
  localAddress : (region.localAddress address).toNat =
    if region.remap then address.toNat - region.first.toNat else address.toNat
  calls : bus.deviceCalls address request = [(region.id, region.localAddress address, request)]
  answer : bus.answer address request =
    ((Device.answer region.device (region.localAddress address) request).1,
      bus.replace region.id (Device.answer region.device (region.localAddress address) request).2)

/-- How a bus after some changes answers at every address, and what it hands back. -/
structure Resolves [Device δ] (changes : List (Change δ)) (bus : Bus δ) : Prop where
  /-- the regions are those that were mapped and not taken off since -/
  live : ∀ region, region ∈ bus.regions ↔ Live changes region
  /-- from the oldest region to the newest the numbers grow -/
  increasing : bus.regions.reverse.Pairwise fun older newer => older.id < newer.id
  /-- an address that a region covers has a newest region that covers it -/
  owned : ∀ address, (∃ region, bus.Owns region address) ↔
    ∃ region, Live changes region ∧ region.first ≤ address ∧ address ≤ region.last
  answered : ∀ region address request, bus.Owns region address →
    bus.AnsweredBy region address request
  /-- an access fails without a call exactly at the addresses that no region covers -/
  unmapped : ∀ address request,
    (bus.answer address request = (.error (.unmapped address), bus) ∧
        bus.deviceCalls address request = []) ↔
      ∀ region, Live changes region → ¬(region.first ≤ address ∧ address ≤ region.last)
  /-- a device is handed back for the number of its region -/
  handedBack : ∀ id device, (∃ bus', bus.unmap id = some (device, bus')) ↔
    ∃ region, Live changes region ∧ region.id = id ∧ region.device = device
  /-- a number that no region has takes nothing off -/
  stale : ∀ id, (∀ region, Live changes region → region.id ≠ id) →
    bus.unmap id = none ∧ bus.change (.unmap id) = bus
  /-- without a region the next newest one owns its addresses, and the owners of all other addresses
      are the same -/
  passedOn : ∀ id device bus', bus.unmap id = some (device, bus') →
    bus.change (.unmap id) = bus' ∧ ∀ address,
      (∀ region, bus'.Owns region address ↔
        Region.Newest (bus.regions.filter (·.id ≠ id)) region address) ∧
      ((∀ owner, bus.Owns owner address → owner.id ≠ id) →
        ∀ region, bus'.Owns region address ↔ bus.Owns region address)

theorem exists_owns_iff {bus : Bus δ} (h : bus.Ordered) {address : Word} :
    (∃ region, bus.Owns region address) ↔
      ∃ region ∈ bus.regions, region.first ≤ address ∧ address ≤ region.last := by
  constructor
  · rintro ⟨region, howns⟩
    exact ⟨region, howns.mem, howns.first_le, howns.le_last⟩
  · rintro ⟨region, hmem, hcovers⟩
    cases howner : bus.owner address with
    | none => exact absurd hcovers (owner_eq_none_iff.mp howner region hmem)
    | some owner => exact ⟨owner, (owns_iff h).mp howner⟩

/-- The owners of addresses that do not belong to a region are the same without it. -/
theorem owns_filter_iff {bus : Bus δ} (h : bus.Ordered) {id : Nat} {address : Word}
    (hne : ∀ owner, bus.Owns owner address → owner.id ≠ id) (region : Region δ) :
    Region.Newest (bus.regions.filter (·.id ≠ id)) region address ↔ bus.Owns region address := by
  constructor
  · intro hnewest
    have hmem := (List.mem_filter.mp hnewest.mem).1
    obtain ⟨owner, howns⟩ :=
      (exists_owns_iff h).mpr ⟨region, hmem, hnewest.first_le, hnewest.le_last⟩
    rwa [(Region.newest_filter_of_ne h.decreasing howns (hne owner howns) region).mp hnewest]
  · intro howns
    exact (Region.newest_filter_of_ne h.decreasing howns (hne region howns) region).mpr rfl

/-- An access is answered by the newest region that was mapped over its address and not taken off
    since, and taking a region off changes the owners of its own addresses only. -/
theorem resolves_history [Device δ] (changes : List (Change δ)) :
    Resolves changes (history changes) := by
  have hordered := ordered_history changes
  constructor
  case live => exact fun region => mem_history_iff
  case increasing => exact List.pairwise_reverse.mpr hordered.decreasing
  case owned =>
    intro address
    simp only [exists_owns_iff hordered, mem_history_iff]
  case answered =>
    intro region address request howns
    exact ⟨Region.toNat_localAddress howns.contains, deviceCalls_of_owns hordered howns request,
      answer_of_owns hordered howns request⟩
  case unmapped =>
    intro address request
    simp only [← mem_history_iff]
    rw [← owner_eq_none_iff]
    constructor
    · rintro ⟨-, hcalls⟩
      cases howner : (history changes).owner address with
      | none => rfl
      | some region =>
        rw [deviceCalls_of_owns hordered ((owns_iff hordered).mp howner)] at hcalls
        cases hcalls
    · intro hnone
      exact ⟨answer_of_owner_eq_none hnone request, deviceCalls_of_owner_eq_none hnone request⟩
  case handedBack =>
    intro id device
    simp only [unmap_eq_some_iff hordered, ← mem_history_iff]
    constructor
    · rintro ⟨bus', hregion, -⟩
      exact hregion
    · intro hregion
      exact ⟨_, hregion, rfl⟩
  case stale =>
    intro id hstale
    simp only [← mem_history_iff] at hstale
    have hnone := unmap_eq_none_iff.mpr hstale
    refine ⟨hnone, ?_⟩
    rw [change, hnone]
  case passedOn =>
    intro id device bus' hunmap
    obtain ⟨-, rfl⟩ := (unmap_eq_some_iff hordered).mp hunmap
    refine ⟨by rw [change, hunmap], fun address => ⟨fun region => Iff.rfl, ?_⟩⟩
    exact fun hne region => owns_filter_iff hordered hne region

/-- A memory over the whole address space, two others over parts of it, and the first of these taken
    off twice. -/
def overlapping : List (Change Ram) :=
  [.map (.zeroed 0x10000) 0 0xffff true, .map (.zeroed 0x100) 0x1000 0x1fff true,
    .map (.zeroed 0x100) 0x8000 0x80ff false, .unmap 1, .unmap 1]

theorem resolves_overlapping :
    (history overlapping).deviceCalls 0x1004 .readByte = [(0, 0x1004, .readByte)] ∧
      (history overlapping).deviceCalls 0x8004 .readByte = [(2, 0x8004, .readByte)] ∧
      (history overlapping).unmap 1 = none := by
  have h := resolves_history overlapping
  refine ⟨?_, ?_, ?_⟩
  · exact (h.answered _ 0x1004 .readByte
      ((owns_iff (ordered_history overlapping)).mp rfl)).calls
  · exact (h.answered _ 0x8004 .readByte
      ((owns_iff (ordered_history overlapping)).mp rfl)).calls
  · have hgone : ∀ region ∈ (history overlapping).regions, region.id ≠ 1 := by decide
    exact (h.stale 1 fun region hlive => hgone region (mem_history_iff.mpr hlive)).1

end Bus

end WordMachine
