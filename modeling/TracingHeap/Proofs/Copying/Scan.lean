import TracingHeap.Proofs.Copying.Steps

/-! The copies are looked through until every word in them has been rewritten. -/

set_option autoImplicit false

namespace TracingHeap

/-- The words at some places of an object. -/
def Memory.wordsAt (m : Memory) (p : Nat) (ks : List Nat) : List Nat := ks.map fun k => m.word (blockOf p + k)

namespace Framed

variable {types : TypeTable} {m : Memory} {p : Nat} {d : Descriptor} (f : Framed types m p d)

include f

theorem place_mem_visited {k : Nat} : blockOf p + k ∈ types.visited m p ↔
    k ∈ d.places (d.followed (fun k => m.word (blockOf p + k)) (m.header (blockOf p)).size) := by
  rw [f.visited_eq, List.mem_map]
  constructor
  · rintro ⟨k', place, same⟩
    exact Nat.add_left_cancel same ▸ place
  · exact fun place => ⟨k, place, rfl⟩

theorem visited_words : (types.visited m p).map m.word = m.wordsAt p (d.tracedOffsets.map placeOf) ++
    m.wordsAt p (d.elementPlaces (d.followed (fun k => m.word (blockOf p + k)) (m.header (blockOf p)).size)) := by
  rw [f.visited_eq, List.map_map, Descriptor.places, List.map_append]
  rfl

end Framed

theorem forwardElements_eq (resident : Std.TreeSet Nat) (d : Descriptor) (p index count : Nat) :
    Evacuate.forwardElements resident d p index count =
      Evacuate.forwardSlots resident ((List.range' index count).map fun i => .field (d.elementSlot p i)) := by
  induction count generalizing index with
  | zero => rfl
  | succ count ih =>
    rw [Evacuate.forwardElements, ih, List.range'_succ, List.map_cons, Evacuate.forwardSlots]

namespace Evacuate

variable {types : TypeTable} {resident : Std.TreeSet Nat} {d : Descriptor} {h : Header} {p : Nat} {e e₁ : Evacuation}

-- A failure in the fields is put off until the count has been read, and a failure in the count comes before it.
theorem scanObject_eq (shape : types.shape e.memory p = .ok (h, d)) {fields : Except Failure Unit} :
    attempt (forwardSlots resident ((d.fieldSlots p).map .field)) e = .ok fields e₁ → scanObject types resident p e =
      match (do d.tracedCount e₁.memory p (← e₁.memory.readHeader (blockOf p)).size : Reading Nat) with
      | .error x => .error x e₁
      | .ok count =>
        match fields with
        | .error x => .error x e₁
        | .ok () => forwardElements resident d p 0 count e₁ := by
  intro tried
  unfold scanObject
  rw [run_bind (look_ok shape)]
  simp only []
  rw [run_bind tried]
  cases counted : (do d.tracedCount e₁.memory p (← e₁.memory.readHeader (blockOf p)).size : Reading Nat) with
  | error x => exact run_bind_error (look_error counted)
  | ok count =>
    rw [run_bind (look_ok counted)]
    cases fields <;> rfl

theorem attempt_eq (act : Evacuate Unit) (e : Evacuation) : attempt act e =
    match act e with
    | .ok () e₁ => .ok (.ok ()) e₁
    | .error x e₁ => .ok (.error x) e₁ := by
  unfold attempt
  cases act e <;> rfl

end Evacuate

namespace Origin

/-- The words of the objects in a list have been rewritten, and all roots. -/
def Passed (scanned : List Nat) : Origin → Prop
  | root _ => True
  | word p _ => p ∈ scanned

end Origin

namespace Moving

variable {types : TypeTable} {roots : List Slot} {resident : Std.TreeSet Nat} {space : Space} {m₀ : Memory}
  {live : Nat → Prop} {l : List Nat} {done : List Origin} {e : Evacuation} {p : Nat} {d : Descriptor}
  (footing : Footing types roots resident space m₀ live) (moving : Moving types roots space m₀ live l done e)

include footing moving

theorem holds_copy_object (member : p ∈ l) :
    e.memory.holds (blockOf (copyOf space m₀ l p)) (headerSize + m₀.payloadSize p) = true :=
  Memory.holds_of_range (moving.regular footing) (moving.holds_copy footing member) (Nat.le_refl _)
    (Nat.add_le_add_left (footing.spans (moving.reached _ member)) _)

/-- The front of the header is copied and never rewritten. -/
theorem header_copy (member : p ∈ l) : e.memory.header (blockOf (copyOf space m₀ l p)) =
    { m₀.header (blockOf p) with forward := e.memory.word (blockOf (copyOf space m₀ l p) + 16) } := by
  have holds := moving.reached _ member
  have there := moving.holds_copy footing member
  have large := footing.large holds
  apply Memory.header_congr_front footing.regular (moving.regular footing) (footing.holds_header holds.1)
    (Memory.holds_of_range (moving.regular footing) there (Nat.le_refl _) (Nat.add_le_add_left large _))
  intro i lt
  apply moving.copied p member i (by unfold headerSize at large; omega)
  intro k written
  have first := (footing.place holds (moving.valid _ written).2).1
  omega

theorem check_copy (member : p ∈ l) : (e.memory.header (blockOf (copyOf space m₀ l p))).check = .ok .unmarked := by
  have intact := Header.check_eq_ok.1 (moving.intact p member)
  rw [moving.header_copy footing member]
  exact Header.check_eq_ok.2 intact

theorem framed_copy (member : p ∈ l) (f : Framed types m₀ p d) : Framed types e.memory (copyOf space m₀ l p) d :=
  f.congr (Nat.le_add_left _ _) (moving.holds_copy_object footing member)
    (by rw [moving.header_copy footing member]) (by rw [moving.header_copy footing member])

omit footing in
/-- Of a copy only the words that are followed are rewritten. -/
theorem byte_copy (member : p ∈ l) {i : Nat} (lt : i < m₀.blockSize p)
    (clear : ∀ a ∈ types.visited m₀ p, blockOf p + i < a ∨ a + wordSize ≤ blockOf p + i) :
    e.memory.byte (blockOf (copyOf space m₀ l p) + i) = m₀.byte (blockOf p + i) := by
  refine moving.copied p member i lt fun k written => ?_
  have apart := clear _ (moving.valid _ written).2
  omega

/-- The count word of a copy is the one of the object: the words that are rewritten are others. -/
theorem word_count (member : p ∈ l) (f : Framed types m₀ p d) {r : Region} (region : d.region = some r) :
    e.memory.word (blockOf (copyOf space m₀ l p) + placeOf r.countOffset) = m₀.word (blockOf p + placeOf r.countOffset) := by
  have spans := footing.spans (moving.reached _ member)
  refine f.count_congr footing.regular (moving.regular footing) (moving.holds_copy_object footing member)
    (f.followed_le fun k => m₀.word (blockOf p + k)) (fun i _ last clear => ?_) r region
  unfold Memory.payloadSize at spans
  refine moving.byte_copy member (by omega) fun a visited => ?_
  rw [f.visited_eq] at visited
  obtain ⟨k, place, rfl⟩ := List.mem_map.1 visited
  have apart := clear k place
  omega

/-- The count is read after the fields have been forwarded; the count word is none of them. -/
theorem count_copy (member : p ∈ l) (f : Framed types m₀ p d) :
    (do d.tracedCount e.memory (copyOf space m₀ l p) (← e.memory.readHeader (blockOf (copyOf space m₀ l p))).size) =
      match types.excess m₀ p with
      | some (count, capacity) => .error (.corrupted (copyOf space m₀ l p) (.regionOverflow count capacity))
      | none => .ok (d.followed (fun k => m₀.word (blockOf p + k)) (m₀.header (blockOf p)).size) := by
  have regular := moving.regular footing
  have f' := moving.framed_copy footing member f
  have size : (e.memory.header (blockOf (copyOf space m₀ l p))).size = (m₀.header (blockOf p)).size := by
    rw [moving.header_copy footing member]
  obtain ⟨excess, followed⟩ := Descriptor.followed_congr (m₀.header (blockOf p)).size
    (fun k => m₀.word (blockOf p + k)) (fun k => e.memory.word (blockOf (copyOf space m₀ l p) + k))
    fun _ region => moving.word_count footing member f region
  simp only [f'.readHeader_eq regular, bind, Except.bind, f'.tracedCount_eq regular]
  rw [f.excess_eq, size, excess]
  cases none : d.excess (fun k => m₀.word (blockOf p + k)) (m₀.header (blockOf p)).size with
  | some pair => rfl
  | none =>
    rw [none] at excess
    rw [← followed, Descriptor.followed_of_fits (Descriptor.excess_eq_none.1 excess)]

/-- Following the references at some places of a copy. -/
theorem forwardPlaces_spec (member : p ∈ l) {ks : List Nat} (within : ∀ k ∈ ks, blockOf p + k ∈ types.visited m₀ p)
    (nodup : ks.Nodup) (fresh : ∀ k ∈ ks, Origin.word p k ∉ done) :
    match (m₀.wordsAt p ks).foldlM (meet resident space m₀) l with
    | .ok l' => ∃ e' done', Evacuate.forwardSlots resident (ks.map fun k => .field (blockOf (copyOf space m₀ l p) + k)) e
        = .ok () e' ∧ Moving types roots space m₀ live l' done' e' ∧
        ∀ x, x ∈ done' ↔ x ∈ done ∨ ∃ k ∈ ks, Origin.word p k = x
    | .error x => ∃ e' l' done',
        Evacuate.forwardSlots resident (ks.map fun k => .field (blockOf (copyOf space m₀ l p) + k)) e = .error x e' ∧
        Moving types roots space m₀ live l' done' e' ∧ l <+: l' ∧ ∃ word, meet resident space m₀ l' word = .error x := by
  have distinct : (ks.map (Origin.word p)).Nodup :=
    List.pairwise_map.2 (nodup.imp fun different same => different (Origin.word.inj same).2)
  have spec := moving.forwardSlots_spec footing (ks.map (Origin.word p))
    (fun x known => by
      obtain ⟨k, here, rfl⟩ := List.mem_map.1 known
      exact ⟨member, within k here⟩)
    (fun x known => by
      obtain ⟨k, here, rfl⟩ := List.mem_map.1 known
      exact fresh k here) distinct
  rw [List.map_map, List.map_map] at spec
  have words : ks.map ((·.original m₀) ∘ Origin.word p) = m₀.wordsAt p ks := rfl
  rw [words] at spec
  cases met : (m₀.wordsAt p ks).foldlM (meet resident space m₀) l with
  | error x =>
    rw [met] at spec
    exact spec
  | ok l' =>
    rw [met] at spec
    obtain ⟨e', ran, next⟩ := spec
    refine ⟨e', _, ran, next, fun x => ?_⟩
    rw [List.mem_append, List.mem_reverse, List.mem_map]
    exact or_comm

theorem fieldSlots_copy (member : p ∈ l) (f : Framed types m₀ p d) :
    (d.fieldSlots (copyOf space m₀ l p)).map Slot.field =
      (d.tracedOffsets.map placeOf).map fun k => .field (blockOf (copyOf space m₀ l p) + k) := by
  rw [(moving.framed_copy footing member f).fieldSlots_eq (moving.regular footing), List.map_map]
  rfl

theorem elementSlots_copy (member : p ∈ l) (f : Framed types m₀ p d) {count : Nat}
    (room : d.fixedSize + count * wordSize ≤ (m₀.header (blockOf p)).size) :
    ((List.range' 0 count).map fun i => Slot.field (d.elementSlot (copyOf space m₀ l p) i)) =
      (d.elementPlaces count).map fun k => .field (blockOf (copyOf space m₀ l p) + k) := by
  have f' := moving.framed_copy footing member f
  have room' : d.fixedSize + count * wordSize ≤ (e.memory.header (blockOf (copyOf space m₀ l p))).size := by
    rwa [moving.header_copy footing member]
  have split := congrArg (List.map Slot.field) (f'.elementSlots_eq (moving.regular footing) room')
  rw [Descriptor.elementSlots, List.map_map, List.map_map, List.range_eq_range'] at split
  exact split

/-- The fields are tried first. Whatever comes of it, what has been copied until then is in order. -/
theorem fields_spec (member : p ∈ l) (f : Framed types m₀ p d) (fresh : ∀ k, Origin.word p k ∉ done) :
    ∃ e₁ l₁ done₁, attempt (Evacuate.forwardSlots resident ((d.fieldSlots (copyOf space m₀ l p)).map .field)) e =
        .ok (((m₀.wordsAt p (d.tracedOffsets.map placeOf)).foldlM (meet resident space m₀) l).map fun _ => ()) e₁ ∧
      Moving types roots space m₀ live l₁ done₁ e₁ ∧ l <+: l₁ ∧
      (∀ x, (m₀.wordsAt p (d.tracedOffsets.map placeOf)).foldlM (meet resident space m₀) l = .error x →
        ∃ word, meet resident space m₀ l₁ word = .error x) ∧
      ∀ l', (m₀.wordsAt p (d.tracedOffsets.map placeOf)).foldlM (meet resident space m₀) l = .ok l' → l₁ = l' ∧
        ∀ x, x ∈ done₁ ↔ x ∈ done ∨ ∃ k ∈ d.tracedOffsets.map placeOf, Origin.word p k = x := by
  have nodup := (List.nodup_append.1 (Descriptor.nodup_places f.sound
    (d.followed (fun k => m₀.word (blockOf p + k)) (m₀.header (blockOf p)).size))).1
  have spec := moving.forwardPlaces_spec footing member
    (fun k field => f.place_mem_visited.2 (List.mem_append_left _ field)) nodup fun k _ => fresh k
  rw [← moving.fieldSlots_copy footing member f] at spec
  rw [Evacuate.attempt_eq]
  cases met : (m₀.wordsAt p (d.tracedOffsets.map placeOf)).foldlM (meet resident space m₀) l with
  | error x =>
    rw [met] at spec
    obtain ⟨e₁, l₁, done₁, ran, next, grown, stops⟩ := spec
    exact ⟨e₁, l₁, done₁, by rw [ran]; rfl, next, grown, fun y same => Except.error.inj same ▸ stops,
      fun l' found => nomatch found⟩
  | ok l₁ =>
    rw [met] at spec
    obtain ⟨e₁, done₁, ran, next, known⟩ := spec
    exact ⟨e₁, l₁, done₁, by rw [ran]; rfl, next, foldlM_meet_extends met, fun _ failed => (nomatch failed),
      fun l' found => ⟨Except.ok.inj found, known⟩⟩

/-- The fields of a copy are forwarded, then the elements; both in the order in which the object has them. -/
theorem scanObject_spec (member : p ∈ l) (fresh : ∀ k, Origin.word p k ∉ done) :
    match visit types resident space m₀ l p with
    | .ok l' => ∃ e' done', Evacuate.scanObject types resident (copyOf space m₀ l p) e = .ok () e' ∧
        Moving types roots space m₀ live l' done' e' ∧
        ∀ x, x ∈ done' ↔ x ∈ done ∨ x.Valid types roots m₀ l' ∧ ∃ k, x = .word p k
    | .error x => ∃ e' l' done', Evacuate.scanObject types resident (copyOf space m₀ l p) e = .error x e' ∧
        Moving types roots space m₀ live l' done' e' ∧ Stops resident space m₀ l' x := by
  obtain ⟨d, f⟩ := footing.framed p (moving.reached _ member)
  have shape := (moving.framed_copy footing member f).shape_eq (moving.regular footing)
    (moving.check_copy footing member) (by decide)
  obtain ⟨e₁, l₁, done₁, tried, next, grown, stops, known⟩ := moving.fields_spec footing member f fresh
  have still : p ∈ l₁ := grown.subset member
  -- The count is read behind the fields, whatever comes of them.
  have counted := next.count_copy footing still f
  have scanned := Evacuate.scanObject_eq shape tried
  rw [copyOf_extends grown member] at counted
  rw [counted] at scanned
  cases excess : types.excess m₀ p with
  | some pair =>
    rw [visit_of_excess excess]
    rw [excess] at scanned
    exact ⟨e₁, l₁, done₁, scanned, next, .inr ⟨_, _, _, rfl⟩⟩
  | none =>
    rw [visit_of_fits excess, f.visited_words, List.foldlM_append]
    rw [excess] at scanned
    cases first : (m₀.wordsAt p (d.tracedOffsets.map placeOf)).foldlM (meet resident space m₀) l with
    | error x =>
      rw [first] at scanned
      exact ⟨e₁, l₁, done₁, scanned, next, .inl (stops x first)⟩
    | ok l₂ =>
      obtain ⟨rfl, known⟩ := known l₂ first
      rw [first] at scanned
      have room := f.followed_le fun k => m₀.word (blockOf p + k)
      obtain ⟨-, nodup, disjoint⟩ := List.nodup_append.1 (Descriptor.nodup_places f.sound
        (d.followed (fun k => m₀.word (blockOf p + k)) (m₀.header (blockOf p)).size))
      have elements := next.forwardPlaces_spec footing still
        (fun k element => f.place_mem_visited.2 (List.mem_append_right _ element)) nodup fun k element old => by
          rcases (known _).1 old with before | ⟨k', field, same⟩
          · exact fresh k before
          · obtain rfl := (Origin.word.inj same).2
            exact disjoint k' field k' element rfl
      rw [← next.elementSlots_copy footing still f room, ← forwardElements_eq, copyOf_extends grown member] at elements
      simp only [scanned, Except.map, bind, Except.bind]
      cases second : (m₀.wordsAt p (d.elementPlaces _)).foldlM (meet resident space m₀) l₁ with
      | error x =>
        rw [second] at elements
        obtain ⟨e₂, l₂, done₂, failed, next₂, -, stops⟩ := elements
        exact ⟨e₂, l₂, done₂, failed, next₂, .inl stops⟩
      | ok l₃ =>
        rw [second] at elements
        obtain ⟨e₂, done₂, ran, next₂, known₂⟩ := elements
        refine ⟨e₂, done₂, ran, next₂, fun x => ?_⟩
        have within : p ∈ l₃ := (foldlM_meet_extends second).subset still
        rw [known₂, known, or_assoc]
        refine or_congr_right ⟨?_, ?_⟩
        · rintro (⟨k, field, rfl⟩ | ⟨k, element, rfl⟩)
          · exact ⟨⟨within, f.place_mem_visited.2 (List.mem_append_left _ field)⟩, k, rfl⟩
          · exact ⟨⟨within, f.place_mem_visited.2 (List.mem_append_right _ element)⟩, k, rfl⟩
        · rintro ⟨valid, k, rfl⟩
          rcases List.mem_append.1 (f.place_mem_visited.1 valid.2) with field | element
          · exact .inl ⟨k, field, rfl⟩
          · exact .inr ⟨k, element, rfl⟩

end Moving

end TracingHeap
