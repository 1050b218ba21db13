import TracingHeap.Proofs.Copying.Accounts
import TracingHeap.Proofs.Heap.NewObjects
import TracingHeap.Proofs.Loops

/-! Looking through the copies comes to an end.

The top of the copies moves while they are looked through, but not past the reserve, and it moves once for each object.
The cursor that follows it passes a header in every round. It goes by the sizes in the copies, which a root that lies in
the reserve may replace by the address of a copy: that takes the cursor past the end. -/

set_option autoImplicit false

namespace TracingHeap

namespace Evacuate

variable {types : TypeTable} {resident : Std.TreeSet Nat} {e : Evacuation} {block : Nat}

/-- One round: a copy is looked through. -/
def scanRound (types : TypeTable) (resident : Std.TreeSet Nat) : Loop Evacuation Nat := fun block => do
  if (← get).reserve.top ≤ block then return none
  let header ← look fun m => m.readHeader block
  scanObject types resident (payloadOf block)
  return some (block + header.footprint)

theorem scanRound_of_top (done : e.reserve.top ≤ block) : scanRound types resident block e = .ok none e := by
  rw [scanRound, run_bind_get, if_pos done]
  rfl

theorem scanRound_of_copy {h : Header} (more : ¬ e.reserve.top ≤ block) (header : e.memory.readHeader block = .ok h) :
    scanRound types resident block e =
      (scanObject types resident (payloadOf block) >>= fun _ => pure (some (block + h.footprint))) e := by
  rw [scanRound, run_bind_get, if_neg more]
  exact run_bind (look_ok header)

/-- Counting the rounds changes nothing as long as there are some left. -/
theorem scan_succ_eq (rounds : Nat) : scan types resident (rounds + 1) block e =
    match scanRound types resident block e with
    | .ok none e' => .ok () e'
    | .ok (some next) e' => scan types resident rounds next e'
    | .error x e' => .error x e' := by
  by_cases done : e.reserve.top ≤ block
  · rw [scanRound_of_top done, scan_of_top _ done]
  · cases header : e.memory.readHeader block with
    | error x =>
      have failed : look (fun m => m.readHeader block) e = .error x e := look_error header
      rw [scan, scanRound, run_bind_get, run_bind_get, if_neg done, if_neg done, run_bind_error failed,
        run_bind_error failed]
    | ok h =>
      rw [scan_succ rounds done header, scanRound_of_copy done header]
      cases ran : scanObject types resident (payloadOf block) e with
      | ok _ e' => simp only [run_bind ran]; rfl
      | error x e' => simp only [run_bind_error ran]

end Evacuate

/-! ### The cursor -/

/-- The cursor is at a copy or behind the last one, or past the reserve. -/
def ScansAt (space : Space) (m₀ : Memory) (l : List Nat) (block : Nat) : Prop :=
  (∃ j ≤ l.length, block = space.start + ((l.take j).map m₀.blockSize).sum) ∨ space.start + space.size ≤ block

namespace Booked

variable {types : TypeTable} {resident : Std.TreeSet Nat} {space : Space} {m₀ : Memory} {l : List Nat} {e : Evacuation}
  {p block : Nat} (site : Site resident space m₀) (booked : Booked resident space m₀ l e)

include site booked

/-- Looked through is a copy. Behind it is the next one, or what stands for its size leads past the reserve. -/
theorem passes {j : Nat} (at' : l[j]? = some p) :
    headerSize ≤ e.memory.blockSize (copyOf space m₀ l p) ∧ ∀ l', l <+: l' →
      ScansAt space m₀ l' (blockOf (copyOf space m₀ l p) + e.memory.blockSize (copyOf space m₀ l p)) := by
  have member := List.mem_of_getElem? at'
  have accounts := booked.toAccounts
  have place : blockOf (copyOf space m₀ l p) = space.start + ((l.take j).map m₀.blockSize).sum :=
    (blockOf_copyOf ..).trans (placed_getElem? accounts.nodup at')
  rcases booked.copied p member with size | ⟨q, known, size⟩
  · have same : e.memory.blockSize (copyOf space m₀ l p) = m₀.blockSize p := congrArg footprint size
    rw [same]
    refine ⟨site.large (accounts.known p member), fun l' grown => .inl ⟨j + 1, ?_, ?_⟩⟩
    · exact Nat.le_trans (List.getElem?_eq_some_iff.1 at').1 grown.length_le
    · rw [take_succ_of_extends grown at', List.map_append, List.sum_append, place]
      simp [Nat.add_assoc]
  · have regular := accounts.regular site
    have header := accounts.holds_copyHeader site known
    have behind : payloadOf (blockOf (copyOf space m₀ l q)) = copyOf space m₀ l q := by rw [blockOf_copyOf]; rfl
    have inside := Memory.holds_sub regular header headerSize 0 (Nat.le_refl _)
    have far : copyOf space m₀ l q ≤ e.memory.blockSize (copyOf space m₀ l p) := by
      have same : e.memory.blockSize (copyOf space m₀ l p) = footprint (copyOf space m₀ l q) := congrArg footprint size
      rw [same]
      exact le_footprint_of_holds regular (behind ▸ inside)
    have origin := Memory.holds_origin inside
    have small := Memory.holds_le site.regular site.reserve
    rw [show blockOf (copyOf space m₀ l q) + headerSize = copyOf space m₀ l q from behind] at origin
    -- Arenas lie higher than any of them is long.
    have arena : headerSize + Memory.largestArena ≤ Memory.origin := by decide
    refine ⟨by omega, fun l' _ => .inr ?_⟩
    omega

omit site in
/-- As long as the top is behind the cursor, the cursor is at a copy. -/
theorem exists_copy (at' : ScansAt space m₀ l block) (room : (l.map m₀.blockSize).sum ≤ space.size)
    (more : ¬ e.reserve.top ≤ block) : ∃ (j : Nat) (p : Nat), l[j]? = some p ∧ blockOf (copyOf space m₀ l p) = block := by
  have below : block < space.start + (l.map m₀.blockSize).sum := by
    rw [booked.reserve] at more
    exact Nat.lt_of_not_le more
  obtain ⟨j, within, rfl⟩ := at'.resolve_right (by omega)
  rcases Nat.lt_or_ge j l.length with less | all
  · have here := List.getElem?_eq_getElem less
    exact ⟨j, l[j], here, (blockOf_copyOf ..).trans (placed_getElem? booked.nodup here)⟩
  · rw [List.take_of_length_le all] at below
    exact absurd below (Nat.lt_irrefl _)

theorem readHeader_copy (member : p ∈ l) : e.memory.readHeader (blockOf (copyOf space m₀ l p)) =
    .ok (e.memory.header (blockOf (copyOf space m₀ l p))) :=
  if_pos (Memory.holds_of_range (booked.toAccounts.regular site) (booked.toAccounts.holds_copyHeader site member)
    (Nat.le_refl _) (Nat.add_le_add_left (by decide) _))

section

variable (checked : types.Checked)

include checked

-- The copies may have become more, but what is in front of the cursor is not touched again.
theorem scanRound_spec (at' : ScansAt space m₀ l block) :
    match Evacuate.scanRound types resident block e with
    | .ok none e' => e' = e ∧ e.reserve.top ≤ block
    | .ok (some next) e' => block + headerSize ≤ next ∧
        ∃ l', l <+: l' ∧ Booked resident space m₀ l' e' ∧ ScansAt space m₀ l' next
    | .error _ _ => True := by
  by_cases done : e.reserve.top ≤ block
  · rw [Evacuate.scanRound_of_top done]
    exact ⟨rfl, done⟩
  · obtain ⟨j, p, here, rfl⟩ := booked.exists_copy at' (booked.toAccounts.total_le site) done
    have whole : wordSize ∣ payloadOf (blockOf (copyOf space m₀ l p)) :=
      Nat.dvd_add (dvd_copyOf site.begins) (by decide : wordSize ∣ headerSize)
    obtain ⟨large, next⟩ := booked.passes site here
    have object := booked.scanObject site checked whole
    rw [Evacuate.scanRound_of_copy done (booked.readHeader_copy site (List.mem_of_getElem? here))]
    cases ran : Evacuate.scanObject types resident (payloadOf (blockOf (copyOf space m₀ l p))) e with
    | error x e' =>
      rw [run_bind_error ran]
      trivial
    | ok _ e' =>
      obtain ⟨l', grown, booked'⟩ := object.of_ok ran
      rw [run_bind ran]
      exact ⟨Nat.add_le_add_left large _, l', grown, booked', next l' grown⟩

-- By induction on the rounds that are left, of which there are at least as many as bytes between the cursor and the end of
-- the reserve.
theorem scan_ends (at' : ScansAt space m₀ l block) (rounds : Nat) (enough : space.start + space.size ≤ block + rounds) :
    match Evacuate.scan types resident rounds block e with
    | .ok _ e' => ∃ last, Loop.Ends (Evacuate.scanRound types resident) block e (.ok last e')
    | .error x e' => Loop.Ends (Evacuate.scanRound types resident) block e (.error x e') := by
  induction rounds generalizing l block e with
  | zero =>
    have room := booked.toAccounts.total_le site
    have done : e.reserve.top ≤ block := by
      rw [booked.reserve]
      exact Nat.le_trans (Nat.add_le_add_left room _) enough
    rw [Evacuate.scan_of_top _ done]
    exact ⟨block, .done (Evacuate.scanRound_of_top done)⟩
  | succ rounds ih =>
    have round := booked.scanRound_spec site checked at'
    rw [Evacuate.scan_succ_eq]
    cases ran : Evacuate.scanRound types resident block e with
    | error x e' => exact .failed ran
    | ok next e' =>
      rw [ran] at round
      cases next with
      | none =>
        obtain ⟨rfl, -⟩ := round
        exact ⟨block, .done ran⟩
      | some next =>
        obtain ⟨advanced, l', -, booked', at''⟩ := round
        have positive : 0 < headerSize := by decide
        have later := ih booked' at'' (by omega)
        simp only
        cases rest : Evacuate.scan types resident rounds next e' with
        | ok _ e'' =>
          rw [rest] at later
          obtain ⟨last, ends⟩ := later
          exact ⟨last, .again ran ends⟩
        | error x e'' =>
          rw [rest] at later
          exact .again ran later

end

end Booked

/-! ### The whole loop -/

namespace Copying

variable {types : TypeTable} {roots : List Slot} {c : Copying} {m : Memory} {e : Evacuation}

/-- The state that looking through the copies begins with: what the roots refer to has been copied. -/
def Started (roots : List Slot) (c : Copying) (m : Memory) (e : Evacuation) : Prop :=
  Evacuate.forwardSlots c.resident (distinctSlots roots) { memory := m, reserve := c.spaces.reserve } = .ok () e

/-- Looking through the copies ends, whatever the roots and the objects refer to. -/
structure ScanEnds (types : TypeTable) (roots : List Slot) (c : Copying) (m : Memory) : Prop where
  /-- Each round passes a header. It may copy more objects, each once in the whole collection, and one behind the other. -/
  round : ∀ {e block₁ block₂ e₁ e₂}, Started roots c m e →
    Loop.Leads (Evacuate.scanRound types c.resident) c.spaces.reserve.start e block₁ e₁ →
    Evacuate.scanRound types c.resident block₁ e₁ = .ok (some block₂) e₂ →
    block₁ + headerSize ≤ block₂ ∧ ∃ copied copied', copied <+: copied' ∧
      Accounts c.resident c.spaces.reserve m copied e₁ ∧ Accounts c.resident c.spaces.reserve m copied' e₂ ∧
      copied'.length ≤ c.resident.size ∧ e₂.reserve.cursor ≤ c.spaces.reserve.size
  /-- The copies stay within the reserve, whatever comes of the collection. -/
  room : (after (evacuateAll types roots c.resident { memory := m, reserve := c.spaces.reserve })).reserve.cursor ≤
    c.spaces.reserve.size
  ends : ∀ {e}, Started roots c m e →
    match evacuateAll types roots c.resident { memory := m, reserve := c.spaces.reserve } with
    | .ok _ e' => ∃ last, Loop.Ends (Evacuate.scanRound types c.resident) c.spaces.reserve.start e (.ok last e')
    | .error x e' => Loop.Ends (Evacuate.scanRound types c.resident) c.spaces.reserve.start e (.error x e')
  /-- As long as the roots lie outside the arenas, whatever goes wrong is found. -/
  found : (∀ s ∈ roots, m.isCell s = true) → ∀ {x e},
    evacuateAll types roots c.resident { memory := m, reserve := c.spaces.reserve } = .error x e →
    ∃ error, x = .violation error

theorem evacuateAll_of_started (started : Started roots c m e) (start : e.reserve.start = c.spaces.reserve.start)
    (size : e.reserve.size = c.spaces.reserve.size) :
    evacuateAll types roots c.resident { memory := m, reserve := c.spaces.reserve } =
      Evacuate.scan types c.resident c.spaces.reserve.size c.spaces.reserve.start e := by
  unfold evacuateAll
  rw [run_bind started, run_bind_get, start, size]

section

variable (charted : (Engine.copying c).Charted types m)

include charted

theorem charted_sized : c.Sized types m (c.resident.contains · = true) := by
  have fits : Tiled m c.spaces.active.top c.spaces.active.start c.resident.toList := charted.fits
  -- Of a damaged object the collection reads the header only.
  have extent (p : Nat) (known : c.resident.contains p = true) : m.extent p ≤ m.blockSize p := by
    unfold Memory.extent
    split
    · exact Nat.le_refl _
    · exact charted.large known
  constructor
  case typed => exact fun p known _ => (charted.legible p known).typed
  case within =>
    intro p known
    obtain ⟨low, high⟩ := fits.bounds (Std.TreeSet.mem_toList.2 known)
    exact ⟨low, Nat.le_trans (Nat.add_le_add_left (extent p known) _) high⟩
  case apart =>
    intro p q first second less
    exact Nat.le_trans (Nat.add_le_add_left (extent p first) _)
      (Engine.fits_apart charted.standing charted.fits first second less)

variable (ledger : (Engine.copying c).Ledger m)

include ledger

theorem charted_site (active : wordSize ∣ c.spaces.active.start) (reserve : wordSize ∣ c.spaces.reserve.start) :
    Site c.resident c.spaces.reserve m := by
  have fits : Tiled m c.spaces.active.top c.spaces.active.start c.resident.toList := charted.fits
  have bounds (p : Nat) (known : c.resident.contains p = true) :
      c.spaces.active.start ≤ blockOf p ∧ blockOf p + m.blockSize p ≤ c.spaces.active.top := by
    obtain ⟨low, high⟩ := fits.bounds (Std.TreeSet.mem_toList.2 known)
    unfold payloadOf at low
    exact ⟨Nat.le_sub_of_add_le low, high⟩
  have apart (p q : Nat) (first : c.resident.contains p = true) (second : c.resident.contains q = true) (less : p < q) :
      blockOf p + m.blockSize p ≤ blockOf q := Engine.fits_apart charted.standing charted.fits first second less
  obtain ⟨ledger, here, there⟩ := ledger
  rw [← ledger.active] at here
  rw [← ledger.reserve] at there
  constructor
  case regular => exact charted.regular
  case low => exact fun p known => charted.low known
  case whole => exact fun p known => fits.aligned active (Std.TreeSet.mem_toList.2 known)
  case spans => exact fun p known => charted.spans known
  case inside => exact fun p known => (Engine.fits_inside charted.standing charted.regular charted.fits known).2
  case apart => exact apart
  case begins => exact reserve
  case reserve => exact there
  case away => exact fun p known => ledger.away charted.regular here there (bounds p known).1 (bounds p known).2
  case total =>
    intro l nodup known
    have total := Memory.sum_blockSize_le nodup (fun p first q second => apart p q (known p first) (known q second))
      fun p member => bounds p (known p member)
    have room := ledger.room
    rw [ledger.active, ← ledger.reserve] at room
    exact Nat.le_trans total (Nat.le_trans (Nat.le_of_eq (Nat.add_sub_cancel_left ..)) room)

variable (checked : types.Checked)

include checked

/-- What goes wrong with roots outside the arenas is found. -/
theorem evacuateAll_found (cells : ∀ s ∈ roots, m.isCell s = true) {x : Failure}
    (failed : evacuateAll types roots c.resident { memory := m, reserve := c.spaces.reserve } = .error x e) :
    ∃ error, x = .violation error := by
  have footing : Footing types roots c.resident c.spaces.reserve m (c.resident.contains · = true) :=
    (charted_sized charted).footing charted.regular checked ledger (fun _ known => known)
      (fun s root => Memory.isCell_iff.1 (cells s root)) (fun _ _ _ known => known) fun _ _ _ _ _ known => known
  have spec := evacuateAll_spec footing ledger.1.empty
  have objection := departures_spec footing
  cases outcome : departures types roots c.resident c.spaces.reserve m with
  | ok l =>
    rw [outcome] at spec
    obtain ⟨e', done, ran, -⟩ := spec
    cases ran.symm.trans failed
  | error y =>
    rw [outcome] at spec objection
    obtain ⟨e', l, done, ran, -⟩ := spec
    cases ran.symm.trans failed
    obtain ⟨p, defect, rfl⟩ := objection.corrupted
    exact ⟨_, rfl⟩

theorem scanEnds (active : wordSize ∣ c.spaces.active.start) (reserve : wordSize ∣ c.spaces.reserve.start)
    (aligned : ∀ s ∈ roots, s.Aligned) : c.ScanEnds types roots m := by
  have site := charted_site charted ledger active reserve
  have start : Booked c.resident c.spaces.reserve m [] { memory := m, reserve := c.spaces.reserve } := .start ledger.1.empty
  -- The first copy, if there is one, begins where the reserve does.
  have starts (l : List Nat) : ScansAt c.spaces.reserve m l c.spaces.reserve.start := .inl ⟨0, Nat.zero_le _, rfl⟩
  have begun {e : Evacuation} (started : Started roots c m e) : ∃ l, Booked c.resident c.spaces.reserve m l e := by
    obtain ⟨l, -, booked⟩ := (start.forwardSlots site (distinctSlots roots) fun s member =>
      aligned s (mem_distinctSlots.1 member)).of_ok started
    exact ⟨l, booked⟩
  constructor
  case round =>
    intro e block₁ block₂ e₁ e₂ started leads ran
    obtain ⟨l, booked, at'⟩ := leads.keeps
      (P := fun block e => ∃ l, Booked c.resident c.spaces.reserve m l e ∧ ScansAt c.spaces.reserve m l block)
      ((begun started).imp fun l booked => ⟨booked, starts l⟩)
      fun {_ _ _ _} ⟨l, booked, at'⟩ ran => by
        have round := booked.scanRound_spec site checked at'
        rw [ran] at round
        obtain ⟨-, l', -, booked', at''⟩ := round
        exact ⟨l', booked', at''⟩
    have round := booked.scanRound_spec site checked at'
    rw [ran] at round
    obtain ⟨advanced, l', grown, booked', -⟩ := round
    refine ⟨advanced, l, l', grown, booked.toAccounts, booked'.toAccounts, length_le_size booked'.nodup booked'.known, ?_⟩
    rw [booked'.reserve]
    exact booked'.toAccounts.total_le site
  case room =>
    have grown := always_evacuateAll types roots c.resident { memory := m, reserve := c.spaces.reserve }
    refine Nat.le_trans (grown.room ?_) (Nat.le_of_eq grown.size)
    show c.spaces.reserve.cursor ≤ c.spaces.reserve.size
    rw [ledger.1.empty]
    exact Nat.zero_le _
  case ends =>
    intro e started
    obtain ⟨l, booked⟩ := begun started
    have same := booked.reserve
    rw [evacuateAll_of_started started (by rw [same]) (by rw [same])]
    exact booked.scan_ends site checked (starts l) _ (Nat.le_refl _)
  case found => exact fun cells _ _ failed => evacuateAll_found charted ledger checked cells failed

end

end Copying

end TracingHeap
