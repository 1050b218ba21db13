import TracingHeap.Proofs.Copying.Accounts
import TracingHeap.Proofs.Copying.Damage
import TracingHeap.Proofs.Heap.Demand
import TracingHeap.Proofs.Heap.NewObjects
import TracingHeap.Proofs.Heap.Outcome
import TracingHeap.Proofs.MarkSweep.Stability

/-! What the report on a collection adds up to.

A heap that does not move its objects counts the blocks that it keeps and those that it gives back. One that moves them
takes what it has copied from what there was, and what is left of that is what it reports as given back. -/

set_option autoImplicit false

namespace TracingHeap

namespace Engine

/-- Objects that the last collection has moved. -/
def evacuated : Engine → Nat
  | copying c => c.evacuated
  | markSweep _ | leaky _ => 0

/-- What is left and what has been given back add up to what there was, and no room is lost. -/
structure Balances (e : Engine) (report : CollectionReport) (e' : Engine) : Prop where
  objects : report.objectsLive + report.objectsReclaimed = e.objectCount
  bytes : report.bytesLive + report.bytesReclaimed = e.liveBytes
  objectsLive : e'.objectCount = report.objectsLive
  bytesLive : e'.liveBytes = report.bytesLive
  moved : report.objectsRelocated = e'.evacuated
  room : e'.liveBytes + e'.availableBytes = e.liveBytes + e.availableBytes

end Engine

section

variable {types : TypeTable} {roots : List Slot} {m m' : Memory} {report : CollectionReport}

namespace MarkSweep

variable {c c' : MarkSweep}

theorem length_blocks (c : MarkSweep) : c.blocks.length = (Engine.markSweep c).objectCount := by
  rw [blocks, List.length_map, Std.TreeMap.length_toList]
  rfl

/-- Every block is kept or given back. -/
theorem live_append_lost (c : MarkSweep) (marks : List Nat) : (c.live marks ++ c.lost marks).Perm c.blocks := by
  have split := List.filter_append_perm (fun b => decide (payloadOf b.start ∈ marks)) c.blocks
  simpa only [live, lost, decide_not] using split

theorem Complete.room (complete : Complete c) : c.liveBytes + c.availableBytes = c.size := by
  have whole := complete.total
  have counted := complete.counted
  unfold liveBytes availableBytes
  omega

theorem balances (charted : (Engine.markSweep c).Charted types m) (checked : types.Checked)
    (unmarked : ∀ p, (Engine.markSweep c).Held p → m.Unmarked p) (complete : Complete c)
    (ran : c.collect types roots m = .ok (c', report) m') : (Engine.markSweep c).Balances report (.markSweep c') := by
  have intact := charted.intact checked unmarked
  obtain ⟨ledger, inside⟩ := charted.standing
  cases read : roots.mapM m.readSlot with
  | error x => cases ran.symm.trans (run_bind_error (Access.look_error read))
  | ok words =>
    obtain rfl := Memory.roots_of_readRoots read
    cases found : c.survivors types roots m with
    | error x =>
      obtain ⟨_, _, failed, -⟩ := collect_error intact read found
      cases ran.symm.trans failed
    | ok marks =>
      obtain ⟨_, _, collected', collected, -⟩ := collect_ok intact ledger read inside found
      cases ran.symm.trans collected'
      have reach := (found ▸ survivors_spec intact roots).1
      obtain ⟨live, liveBytes⟩ := collected.reportOf_live reach
      have split := c.live_append_lost marks
      have complete' := complete_collect complete charted.regular inside ran
      constructor
      case objects =>
        rw [← length_blocks, ← split.length_eq, List.length_append]
        rfl
      case bytes =>
        show _ = c.liveBytes
        rw [complete.partition.liveBytes, ← totalSize_perm split, totalSize_append]
        rfl
      case objectsLive => exact (live.trans c'.length_blocks).symm
      case bytesLive => exact complete'.partition.liveBytes.trans liveBytes.symm
      case moved => rfl
      case room => exact complete'.room.trans (collected.size.trans complete.room.symm)

end MarkSweep

namespace Copying

variable {c c' : Copying}

theorem Ledger.room_eq (ledger : Ledger c) : c.liveBytes + c.availableBytes = c.spaces.size := by
  have room := ledger.room
  have active := ledger.active
  unfold liveBytes availableBytes Space.free
  omega

/-- What has been copied was held before, and took no more than what was in use. -/
theorem balances (ground : Ground types c.resident c.spaces.reserve m) (sized : c.Sized types m (c.resident.contains · = true))
    (checked : types.Checked) (ledger : Ledger c) (whole : wordSize ∣ c.spaces.reserve.start)
    (aligned : ∀ s ∈ roots, s.Aligned) (ran : c.collect types roots m = .ok report (c', m')) :
    (Engine.copying c).Balances report (.copying c') := by
  obtain ⟨l, nodup, known, rfl, residents, evacuated, active⟩ :=
    collect_accounted ground checked ledger.empty whole aligned ran
  have fewer : l.length ≤ c.resident.size := length_le_size nodup known
  have less := sized.total_le l nodup fun p member => ⟨known p member, ground.unmarked p (known p member)⟩
  obtain ⟨ledger', size, -⟩ := ledger_collect ledger ran
  constructor
  case objects => exact Nat.add_sub_of_le fewer
  case bytes => exact Nat.add_sub_of_le less
  case objectsLive => exact residents
  case bytesLive => exact congrArg Space.cursor active
  case moved => exact evacuated.symm
  case room => exact ledger'.room_eq.trans (size.trans ledger.room_eq.symm)

end Copying

end

namespace World

variable {w : World} {c : Copying}

/-- The objects of a heap that moves them can be moved wherever the roots are. -/
theorem Labelled.ground (labelled : w.Labelled) (books : w.Books) (aligned : w.Aligned)
    (engine : w.heap.collector.engine = .copying c) : Ground w.heap.types c.resident c.spaces.reserve w.memory where
  toFooting := (labelled.sized engine).footing books.regular books.types (engine ▸ books.ledger) (fun _ known => known)
    nofun nofun fun _ _ _ _ _ known => known
  unmarked := by
    have unmarked := labelled.unmarked
    rw [engine] at unmarked
    exact unmarked
  whole := by
    have fits := labelled.fits
    unfold Aligned at aligned
    rw [engine] at fits aligned
    exact fun p known => Tiled.aligned fits aligned.1 (Std.TreeSet.mem_toList.2 known)

end World

namespace Engine

variable {w : World} {e : Engine} {m : Memory} {report : CollectionReport}

-- Roots inside the arenas are rewritten by a collection that moves, so there they have to be whole words.
/-- A collection that succeeds accounts for all objects and for all room. -/
theorem balances (labelled : w.Labelled) (books : w.Books) (complete : w.Complete) (aligned : w.Aligned)
    (slots : w.heap.collector.engine.strategy = .copying → ∀ s ∈ w.heap.roots.slots, s.Aligned)
    (ran : Engine.collect w.heap.types w.heap.roots.slots (w.heap.collector.engine, w.memory) = .ok report (e, m)) :
    w.heap.collector.engine.Balances report e := by
  have charted := labelled.charted books
  have unmarked := labelled.unmarked
  have ledger := books.ledger
  cases engine : w.heap.collector.engine with
  | markSweep c =>
    rw [engine] at ran charted unmarked
    cases collected : c.collect w.heap.types w.heap.roots.slots w.memory <;>
      simp only [Engine.collect, collected] at ran <;> cases ran
    exact MarkSweep.balances charted books.types unmarked (complete c engine).1 collected
  | copying c =>
    have ground := labelled.ground books aligned engine
    unfold World.Aligned at aligned
    rw [engine] at ran ledger aligned
    cases collected : c.collect w.heap.types w.heap.roots.slots w.memory <;>
      simp only [Engine.collect, collected] at ran <;> cases ran
    exact Copying.balances ground (labelled.sized engine) books.types ledger.1 aligned.2
      (slots (by rw [engine]; rfl)) collected
  | leaky c =>
    rw [engine] at ran
    cases ran
    exact ⟨rfl, rfl, rfl, rfl, rfl, rfl⟩

end Engine

namespace Heap

variable {w w' : World} {report : CollectionReport}

/-- A collection that succeeds where the headers are in order: what is left and what has been given back add up to what
there was, in objects and in bytes. Wherever the roots are, and whatever the words in them and in the objects lead to. -/
theorem collect_accounts (reached : Reached w) (labelled : w.Labelled)
    (slots : w.heap.collector.engine.strategy = .copying → ∀ s ∈ w.heap.roots.slots, s.Aligned)
    (ran : collect w = .ok report w') :
    report.objectsLive + report.objectsReclaimed = w.heap.objectCount ∧
      report.bytesLive + report.bytesReclaimed = w.heap.liveBytes ∧
      w'.heap.objectCount = report.objectsLive ∧ w'.heap.liveBytes = report.bytesLive ∧
      w'.heap.liveBytes + w'.heap.availableBytes = w.heap.liveBytes + w.heap.availableBytes := by
  have healthy := healthy_of_ok ran
  rw [collect_eq healthy] at ran
  obtain ⟨e, m, collected, rfl⟩ := runCollection_eq_ok ran
  obtain ⟨objects, bytes, objectsLive, bytesLive, -, room⟩ := Engine.balances labelled (reached.orderly healthy)
    reached.complete reached.spaces_aligned slots collected
  exact ⟨objects, bytes, objectsLive, bytesLive, room⟩

/-- The only reference to the second of three objects is a root that lies inside the first. -/
theorem collect_accounts_from_inner_root : ∃ w report w', Reached w ∧ w.Labelled ∧
    w.heap.collector.engine.strategy = .copying ∧ .field (Memory.origin + 24) ∈ w.heap.roots.slots ∧
    collect w = .ok report w' ∧ w.heap.objectCount = 3 ∧ report.objectsLive = 2 ∧
    2 + report.objectsReclaimed = 3 ∧ w'.heap.objectCount = 2 ∧
    report.bytesLive + report.bytesReclaimed = w.heap.liveBytes ∧ w'.heap.liveBytes = report.bytesLive ∧
    w'.heap.liveBytes + w'.heap.availableBytes = w.heap.liveBytes + w.heap.availableBytes := by
  have ran : ((World.play (fun w _ => w.heap.poisoned = none) { strategy := .copying, heapSize := 4096 } 1
      [.call (.register .link Descriptor.link_isWords), .call .pushRoot, .call (.addRoot ⟨0, 0⟩ (.cell 0)),
        .call (.addRoot ⟨0, 0⟩ (.field (Memory.origin + 24))), .call (.allocate ⟨1⟩ 0), .call (.allocate ⟨1⟩ 0),
        .call (.allocate ⟨1⟩ 0), .setCell 0 (Memory.origin + 24),
        .writeWord (Memory.origin + 24) 0 (Memory.origin + 56)]).any fun w =>
      w.onCopying fun c => w.heap.poisoned = none ∧ w.heap.config.verifyHeap = false ∧ w.Labelled ∧
        w.heap.roots.slots.Nodup ∧ (∀ s ∈ w.heap.roots.slots, s.Aligned) ∧
        .field (Memory.origin + 24) ∈ w.heap.roots.slots ∧ c.resident.size = 3 ∧
        let moved := Copying.evacuateSlots w.heap.types w.heap.roots.slots c.resident
          { memory := w.memory, reserve := c.spaces.reserve }
        answer moved = .ok () ∧ (after moved).copies.size = 2) = true := by
    decide +kernel
  obtain ⟨w, played, shown⟩ := (Option.any_eq_true _ _).1 ran
  obtain ⟨c, engine, shown⟩ := World.onCopying_eq_true.1 shown
  obtain ⟨healthy, unchecked, labelled, nodup, aligned, root, held, moved, copies⟩ := of_decide_eq_true shown
  obtain ⟨report, w', ran, live⟩ := Copying.collect_of_evacuated healthy engine nodup unchecked moved
  rw [copies] at live
  obtain ⟨objects, bytes, objectsLive, bytesLive, room⟩ :=
    collect_accounts (.of_play played) labelled (fun _ => aligned) ran
  have count : w.heap.objectCount = 3 := by
    unfold objectCount
    rw [engine]
    exact held
  refine ⟨w, report, w', .of_play played, labelled, by rw [engine]; rfl, root, ran, count, live, ?_, ?_, bytes, bytesLive,
    room⟩
  · rw [← live, objects, count]
  · rw [objectsLive, live]

end Heap

end TracingHeap
