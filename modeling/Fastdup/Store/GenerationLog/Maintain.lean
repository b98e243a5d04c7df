import Fastdup.Store.GenerationLog.Append

/-!
# Creating, reloading and repairing the slots

Slot creation and reloading keep the arrangement, a repair drops the tail of the
selected slot, and on a storage that does not fail each of them returns.
-/

namespace Fastdup.Store

open Library Format Program GenerationLog Function Triple

variable {digests : Digests} {objects objects' : Objects String} {slot : Fin 2}
  {records : List LogRecord} {record : LogRecord} {view : View}

/-- Only missing slots changed, and they became empty. -/
def Provisioned (objects objects' : Objects String) : Prop :=
  ∀ slot, objects' (SLOT_NAMES slot) = objects (SLOT_NAMES slot) ∨
    (objects (SLOT_NAMES slot) = none ∧ objects' (SLOT_NAMES slot) = some [])

theorem Provisioned.refl (objects : Objects String) : Provisioned objects objects :=
  fun _ => Or.inl rfl

theorem Provisioned.create (absent : objects (SLOT_NAMES slot) = none) :
    Provisioned objects (withSlot objects slot []) := by
  intro other
  rcases eq_or_one_sub_eq slot other with rfl | rfl
  · exact Or.inr ⟨absent, withSlot_self⟩
  · exact Or.inl withSlot_other

theorem Provisioned.trans {objects'' : Objects String} (first : Provisioned objects objects')
    (second : Provisioned objects' objects'') : Provisioned objects objects'' := by
  intro slot
  rcases first slot with same | ⟨absent, created⟩
  · rw [← same]
    exact second slot
  · rcases second slot with same | ⟨absent', _⟩
    · exact Or.inr ⟨absent, by rw [same, created]⟩
    · rw [created] at absent'
      cases absent'

section

variable (provisioned : Provisioned objects objects')

include provisioned

theorem Provisioned.stored {tail : Bytes}
    (stored : Stores digests (objects (SLOT_NAMES slot)) records tail) :
    Stores digests (objects' (SLOT_NAMES slot)) records tail := by
  rcases provisioned slot with same | ⟨absent, _⟩
  · rw [same]
    exact stored
  · have content := stored.content_eq
    rw [absent] at content
    cases content

theorem Provisioned.vacant (vacant : Vacant (objects (SLOT_NAMES slot))) :
    Vacant (objects' (SLOT_NAMES slot)) := by
  rcases provisioned slot with same | ⟨_, created⟩
  · rw [same]
    exact vacant
  · exact Or.inr created

theorem Provisioned.shape (shape : Shape digests objects view) : Shape digests objects' view := by
  cases shape with
  | blank vacant => exact .blank (fun slot => provisioned.vacant (vacant slot))
  | tornStart stored nonempty vacant =>
    exact .tornStart (provisioned.stored stored) nonempty (provisioned.vacant vacant)
  | single stored nonempty vacant =>
    exact .single (provisioned.stored stored) nonempty (provisioned.vacant vacant)
  | tornBridge stored full bridge nonempty =>
    exact .tornBridge (provisioned.stored stored) full (provisioned.stored bridge) nonempty
  | bridged stored full lastRecord bridge =>
    exact .bridged (provisioned.stored stored) full lastRecord (provisioned.stored bridge)
  | rotated stored olderStored olderFull olderLast =>
    exact .rotated (provisioned.stored stored) (provisioned.stored olderStored) olderFull olderLast

theorem Provisioned.isSome (found : (objects (SLOT_NAMES slot)).isSome) :
    (objects' (SLOT_NAMES slot)).isSome := by
  rcases provisioned slot with same | ⟨_, created⟩
  · rw [same]
    exact found
  · rw [created]
    rfl

end

theorem ensureSlotExists_triple (slot : Fin 2) : Triple (· = objects) (ensureSlotExists slot)
      (fun _ objects' => Provisioned objects objects' ∧ (objects' (SLOT_NAMES slot)).isSome)
      (fun _ objects' => Provisioned objects objects') := by
  have probe : Triple (· = objects) (io («exists» (SLOT_NAMES slot)))
      (fun found objects' => objects' = objects ∧ found = (objects (SLOT_NAMES slot)).isSome)
      (fun _ objects' => Provisioned objects objects') := by
    refine (((Reads.readCall _).mapError _).triple objects).weaken ?_ ?_
    · rintro found objects' ⟨same, completed⟩
      simp only [Except.mapError, Except.ok.injEq] at completed
      exact ⟨same, completed.symm⟩
    · rintro _ objects' rfl
      exact Provisioned.refl _
  apply Triple.bind probe
  intro found
  apply forall_start
  rintro objects' ⟨rfl, rfl⟩
  rcases present : objects' (SLOT_NAMES slot) with _ | content
  · have created : Triple (· = objects') (io (createNew (SLOT_NAMES slot)))
        (fun _ objects'' => objects'' = withSlot objects' slot [])
        (fun _ objects'' => Provisioned objects' objects'') := by
      refine Triple.mapError (createNew_triple.weaken (fun _ _ outcome => outcome.2) ?_)
      rintro _ objects'' (rfl | ⟨absent, rfl⟩)
      · exact Provisioned.refl _
      · exact Provisioned.create absent
    have emptied : withSlot (withSlot objects' slot []) slot (resize [] 0) =
        withSlot objects' slot [] := update_idem _ _ _
    apply Triple.bind created
    intro _
    have sized : Triple (· = withSlot objects' slot []) (io (setLen (SLOT_NAMES slot) 0))
        (fun _ objects'' => objects'' = withSlot objects' slot [])
        (fun _ objects'' => Provisioned objects' objects'') := by
      refine Triple.mapError ((setLen_triple withSlot_self 0).weaken ?_ ?_)
      · rintro _ objects'' rfl
        exact emptied
      · rintro _ objects'' (rfl | rfl)
        · exact Provisioned.create present
        · rw [show update _ _ _ = _ from emptied]
          exact Provisioned.create present
    apply Triple.bind sized
    intro _
    refine (((Reads.readCall _).mapError _).triple _).weaken ?_ ?_
    · rintro _ objects'' ⟨rfl, _⟩
      exact ⟨Provisioned.create present, by rw [withSlot_self]; rfl⟩
    · rintro _ objects'' rfl
      exact Provisioned.create present
  · apply Triple.bind ((((Reads.readCall _).mapError _).triple _).weakenCrash ?_)
    · intro length
      by_cases large : length > MAX_SEGMENT_BYTES
      · rw [if_pos large]
        apply Triple.throw
        rintro objects'' ⟨rfl, _⟩
        exact Provisioned.refl _
      · rw [if_neg large]
        apply Triple.pure
        rintro objects'' ⟨rfl, _⟩
        exact ⟨Provisioned.refl _, by rw [present]; rfl⟩
    · rintro _ objects'' rfl
      exact Provisioned.refl _

theorem ensureSlotsExist_triple : Triple (· = objects) ensureSlotsExist
      (fun _ objects' => Provisioned objects objects' ∧ ∀ slot, (objects' (SLOT_NAMES slot)).isSome)
      (fun _ objects' => Provisioned objects objects') := by
  apply bind (ensureSlotExists_triple 0)
  intro _
  apply forall_start
  rintro middle ⟨first, zero⟩
  refine bind ((ensureSlotExists_triple 1).weakenCrash
    (fun _ _ second => first.trans second)) ?_
  intro _
  apply forall_start
  rintro last ⟨second, one⟩
  refine (((Reads.readCall _).mapError _).triple _).weaken ?_ ?_
  · rintro _ objects' ⟨rfl, _⟩
    refine ⟨first.trans second, ?_⟩
    intro slot
    rcases eq_or_one_sub_eq 0 slot with rfl | rfl
    · exact second.isSome zero
    · exact one
  · rintro _ objects' rfl
    exact first.trans second

/-- The writer snapshot that reloading an arrangement returns. -/
def View.Opens (digests : Digests) (snapshot : LogSnapshot) : View → Prop
  | .blank => snapshot = segment digests 0 [] []
  | .broken => False
  | .live slot records tail => snapshot = segment digests slot records tail

theorem View.Opens.writable {snapshot : LogSnapshot} (opens : view.Opens digests snapshot)
    (clean : snapshot.tail = .clean) :
    ∃ slot records, snapshot = segment digests slot records [] ∧ view.Writable slot records := by
  cases view with
  | blank => exact ⟨0, [], opens, rfl, rfl⟩
  | broken => exact opens.elim
  | live slot records tail =>
    subst opens
    by_cases empty : tail = []
    · subst empty
      exact ⟨slot, records, rfl, rfl, rfl, rfl⟩
    · exact absurd clean (tail_segment_ne_clean empty)

theorem empty_eq_segment : LogSnapshot.empty 0 = segment digests 0 [] [] := by
  simp [LogSnapshot.empty, segment, encodeAll]

theorem loadForAppend_triple (shape : Shape digests objects view) :
    Triple (· = objects) (loadForAppend digests)
      (fun snapshot objects' => Provisioned objects objects' ∧
        (∀ slot, (objects' (SLOT_NAMES slot)).isSome) ∧ view.Opens digests snapshot)
      (fun _ objects' => Provisioned objects objects') := by
  apply bind ensureSlotsExist_triple
  intro _
  apply forall_start
  rintro prepared ⟨provisioned, present⟩
  refine bind (((load_reads digests).triple prepared).weakenCrash ?_) ?_
  · rintro _ objects' rfl
    exact provisioned
  · intro found
    apply forall_start
    rintro objects' ⟨rfl, loaded⟩
    rw [loaded_of_shape (provisioned.shape shape)] at loaded
    cases view with
    | blank =>
      cases loaded
      exact pure (fun _ same => same ▸ ⟨provisioned, present, empty_eq_segment⟩)
    | broken => cases loaded
    | live slot records tail =>
      cases loaded
      exact pure (fun _ same => same ▸ ⟨provisioned, present, rfl⟩)

theorem resize_prefix (content tail : Bytes) : resize (content ++ tail) content.length =
    content := by
  simp [resize]

/-- A repair of the named head leaves the selected chain without a tail; interrupted,
it has truncated the slot or changed nothing. -/
theorem repairTail_triple (shape : Shape digests objects view) (expected : LogRecord) :
    Triple (· = objects) (repairTail digests expected)
      (fun _ objects' => ∃ slot records tail, view = .live slot records tail ∧
        records.getLast? = some expected ∧
          objects' = withSlot objects slot (encodeAll digests records))
      (fun _ objects' => objects' = objects ∨ ∃ slot records tail, view = .live slot records tail ∧
        objects' = withSlot objects slot (encodeAll digests records)) := by
  refine Triple.bind (((load_reads digests).triple objects).weakenCrash fun _ _ => Or.inl) ?_
  intro found
  apply forall_start
  rintro objects' ⟨rfl, loaded⟩
  rw [loaded_of_shape shape] at loaded
  cases view with
  | blank =>
    cases loaded
    exact Triple.throw (fun _ same => Or.inl same)
  | broken => cases loaded
  | live slot records tail =>
    cases loaded
    have stored := shape.stored
    have content := stored.content_eq
    by_cases mismatch : (segment digests slot records tail).lastRecord ≠ some expected
    · simp only [if_pos mismatch]
      exact Triple.throw (fun _ same => Or.inl same)
    have head : records.getLast? = some expected := by
      exact not_not.mp mismatch
    simp only [if_neg mismatch]
    by_cases clean : (segment digests slot records tail).tail = .clean
    · have empty : tail = [] := by
        by_contra nonempty
        exact tail_segment_ne_clean nonempty clean
      simp only [if_pos clean]
      apply Triple.pure
      rintro _ rfl
      refine ⟨slot, records, tail, rfl, head, ?_⟩
      simpa [empty] using content
    simp only [if_neg clean]
    have truncated : resize (encodeAll digests records ++ tail)
        (segment digests slot records tail).bytes.length = encodeAll digests records :=
      resize_prefix _ _
    refine Triple.bind (Triple.mapError ((setLen_triple content _).weakenCrash ?_)) ?_
    · rintro _ objects'' (rfl | rfl)
      · exact Or.inl rfl
      · exact Or.inr ⟨slot, records, tail, rfl, by rw [truncated]⟩
    intro _
    rw [truncated]
    have final : ∀ objects'', objects'' = withSlot objects' slot (encodeAll digests records) →
        objects'' = objects' ∨ ∃ slot' records' tail',
          View.live slot records tail = .live slot' records' tail' ∧
            objects'' = withSlot objects' slot' (encodeAll digests records') :=
      fun _ same => Or.inr ⟨slot, records, tail, rfl, same⟩
    refine Triple.bind ((((Reads.readCall _).mapError _).triple _).weakenCrash (fun _ => final)) ?_
    intro bytes
    refine Triple.bind (((Reads.settle _).triple _).consequence (fun _ same => same.1)
      (fun _ _ => id) (fun _ => final)) ?_
    intro verified
    split
    · exact Triple.throw (fun objects'' same => final objects'' same.1)
    · refine (((Reads.readCall _).mapError _).triple _).consequence (fun _ same => same.1)
        ?_ (fun _ => final)
      rintro _ objects'' ⟨same, _⟩
      exact ⟨slot, records, tail, rfl, head, same⟩

theorem Shape.repair {tail : Bytes} (shape : Shape digests objects (.live slot records tail)) :
    Shape digests (withSlot objects slot (encodeAll digests records)) (.live slot records []) := by
  have stored := shape.stored
  by_cases empty : tail = []
  · subst empty
    rw [withSlot, update_objects_self stored.clean]
    exact shape
  · have room : records.length < MAX_SEGMENT_RECORDS := by
      apply lt_of_le_of_ne stored.bounded
      intro full
      exact empty (stored.full full)
    exact shape.rewrite room (List.prefix_refl _) (Stores.of_records stored.chained stored.bounded)

theorem ne_nil_of_full (full : records.length = MAX_SEGMENT_RECORDS) : records ≠ [] := by
  rintro rfl
  cases full

section

variable (shape : Shape digests objects view)

include shape

/-- Each slot by itself: vacant, a nonempty chain, or the torn start that makes the whole
log unreadable. -/
theorem Shape.slot_cases (slot : Fin 2) : Vacant (objects (SLOT_NAMES slot)) ∨
      (∃ records tail, records ≠ [] ∧ Stores digests (objects (SLOT_NAMES slot)) records tail) ∨
      (view = .broken ∧
        ∃ tail, tail ≠ [] ∧ Stores digests (objects (SLOT_NAMES slot)) [] tail) := by
  cases shape with
  | blank vacant => exact Or.inl (vacant slot)
  | @tornStart slot' _ stored nonempty vacant =>
    rcases eq_or_one_sub_eq slot' slot with rfl | rfl
    · exact Or.inr (Or.inr ⟨rfl, _, nonempty, stored⟩)
    · exact Or.inl vacant
  | @single slot' _ _ stored nonempty vacant =>
    rcases eq_or_one_sub_eq slot' slot with rfl | rfl
    · exact Or.inr (Or.inl ⟨_, _, nonempty, stored⟩)
    · exact Or.inl vacant
  | @tornBridge slot' _ _ stored full bridge nonempty =>
    rcases eq_or_one_sub_eq slot' slot with rfl | rfl
    · exact Or.inr (Or.inl ⟨_, _, ne_nil_of_full full, stored⟩)
    · exact Or.inr (Or.inr ⟨rfl, _, nonempty, bridge⟩)
  | @bridged slot' _ _ _ stored full _ bridge =>
    rcases eq_or_one_sub_eq slot' slot with rfl | rfl
    · exact Or.inr (Or.inl ⟨_, _, ne_nil_of_full full, stored⟩)
    · exact Or.inr (Or.inl ⟨_, _, List.cons_ne_nil _ _, bridge⟩)
  | @rotated slot' _ _ _ _ _ stored olderStored olderFull _ =>
    rcases eq_or_one_sub_eq slot' slot with rfl | rfl
    · exact Or.inr (Or.inl ⟨_, _, List.cons_ne_nil _ _, stored⟩)
    · exact Or.inr (Or.inl ⟨_, _, ne_nil_of_full olderFull, olderStored⟩)

theorem Shape.length_le {content : Bytes} (found : objects (SLOT_NAMES slot) = some content) :
    content.length ≤ MAX_SEGMENT_BYTES := by
  have cases := shape.slot_cases slot
  rw [found] at cases
  rcases cases with (absent | empty) | ⟨records, tail, _, stored⟩ | ⟨_, tail, _, stored⟩
  · cases absent
  · cases empty
    exact Nat.zero_le _
  · exact stored.length_le
  · exact stored.length_le

theorem ensureSlotExists_completes (slot : Fin 2) :
    ∃ objects', Completes (ensureSlotExists slot) objects () objects' := by
  have probed : Completes (io («exists» (SLOT_NAMES slot))) objects
      (objects (SLOT_NAMES slot)).isSome objects := by
    apply Completes.mapError
    exact Completes.readCall rfl
  rcases found : objects (SLOT_NAMES slot) with _ | content
  · rw [found] at probed
    refine ⟨withSlot (withSlot objects slot []) slot (resize [] 0), probed.bind ?_⟩
    apply ((Completes.createNew found).mapError _).bind
    apply ((Completes.setLen withSlot_self 0).mapError _).bind
    exact (Completes.syncFile withSlot_self).mapError _
  · rw [found] at probed
    have measured : Completes (io (objectLen (SLOT_NAMES slot))) objects content.length
        objects := by
      apply Completes.mapError
      apply Completes.readCall
      simp [requirePresent, found, Except.map]
    refine ⟨objects, probed.bind ?_⟩
    apply measured.bind
    rw [if_neg (Nat.not_lt.mpr (shape.length_le found))]
    exact Completes.pure _ _

theorem loadForAppend_completes (readable : view ≠ .broken) :
    ∃ snapshot objects', Completes (loadForAppend digests) objects snapshot objects' := by
  rcases ensureSlotExists_completes shape 0 with ⟨first, zero⟩
  have firstShape := (zero.post (ensureSlotExists_triple 0) rfl).1.shape shape
  rcases ensureSlotExists_completes firstShape 1 with ⟨second, one⟩
  have secondShape := (one.post (ensureSlotExists_triple 1) rfl).1.shape firstShape
  have synced : Completes (io syncRoot) second () second := by
    apply Completes.mapError
    exact Completes.readCall rfl
  have ensured : Completes ensureSlotsExist objects () second := zero.bind (one.bind synced)
  have loaded := loaded_of_shape secondShape
  cases view with
  | blank | live slot records tail =>
    exact ⟨_, _, ensured.bind ((Completes.of_reads (load_reads digests) loaded).bind
      (Completes.pure _ _))⟩
  | broken => exact absurd rfl readable

end

theorem repairTail_completes {tail : Bytes}
    (shape : Shape digests objects (.live slot records tail))
    (head : records.getLast? = some record) :
    ∃ objects', Completes (repairTail digests record) objects () objects' := by
  have loaded := Completes.of_reads (load_reads digests) (loaded_of_shape shape)
  have stored := shape.stored
  have content := stored.content_eq
  have matched : ¬ (segment digests slot records tail).lastRecord ≠ some record := by
    rw [lastRecord_segment, head]
    exact not_not.mpr rfl
  by_cases clean : (segment digests slot records tail).tail = .clean
  · refine ⟨objects, loaded.bind ?_⟩
    simp only [if_neg matched, if_pos clean]
    exact Completes.pure _ _
  · refine ⟨withSlot objects slot (encodeAll digests records), loaded.bind ?_⟩
    simp only [if_neg matched, if_neg clean]
    apply ((Completes.setLen content _).mapError _).bind
    have truncated : resize (encodeAll digests records ++ tail)
        (segment digests slot records tail).bytes.length = encodeAll digests records :=
      resize_prefix _ _
    rw [truncated]
    have reread : Completes (io (read (SLOT_NAMES slot)))
        (withSlot objects slot (encodeAll digests records)) (encodeAll digests records)
        (withSlot objects slot (encodeAll digests records)) := by
      apply Completes.mapError
      apply Completes.readCall
      simp [requirePresent]
    have decoded : decodeSegment digests slot (encodeAll digests records) =
        .ok (segment digests slot records []) := by
      have chain : decodeSegment digests slot (encodeAll digests records ++ []) = _ :=
        decodeSegment_chain digests slot stored.chained (by decide)
      simpa using chain
    apply reread.bind
    apply (Completes.settle decoded _).bind
    rw [if_neg]
    · exact (Completes.syncFile withSlot_self).mapError _
    · rintro (dirty | differs)
      · exact dirty tail_segment_clean
      · exact differs rfl

end Fastdup.Store
