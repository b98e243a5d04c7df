import Fastdup.Store.GenerationLog.Layout

/-!
# What one append or repair leaves in the slots

An append writes either the record behind the selected chain or, when the selected
slot is full, the bridge pair into the other slot. Cut at any call it leaves a prefix
of those bytes. The triples state this about bytes; the lemmas at the end of the file
turn each prefix into an arrangement of the slots.
-/

namespace Fastdup.Store

open Library Format Program GenerationLog Function List Stores CommitRecord Nat LogSnapshot Shape

variable {digests : Digests} {objects : Objects String} {slot : Fin 2}
  {records : List LogRecord} {record : LogRecord}

theorem slotNames_ne (slot : Fin 2) : SLOT_NAMES (1 - slot) ≠ SLOT_NAMES slot := by
  revert slot
  decide

theorem one_sub_one_sub (slot : Fin 2) : 1 - (1 - slot) = slot := by
  revert slot
  decide

theorem one_sub_ne (slot : Fin 2) : 1 - slot ≠ slot := by
  revert slot
  decide

theorem eq_or_one_sub_eq (slot other : Fin 2) : other = slot ∨ other = 1 - slot := by
  revert slot other
  decide

/-- The record continues the stored chain, or starts it with generation one. -/
def Continues (digests : Digests) (records : List LogRecord) (record : LogRecord) : Prop :=
  match records.getLast? with
  | none => record.generation = 1
  | some last => Succeeds digests last record

variable {tail : Bytes}

theorem continues_of_verifySuccessor
    (verified : verifySuccessor digests (segment digests slot records tail) record = .ok ()) :
    Continues digests records record := by
  unfold Continues
  unfold verifySuccessor at verified
  rw [lastRecord_segment] at verified
  rcases last : records.getLast? with _ | last'
  · simp only [last] at verified
    split at verified
    · rename_i start
      exact start.1
    · cases verified
  · simp only [last, lastHash, lastEncoded_segment last, Option.map_some] at verified
    split at verified
    · cases verified
    · rename_i linked
      simp only [not_or, not_not, Option.some.injEq, not_lt] at linked
      exact ⟨linked.1, linked.2.1.symm, linked.2.2.1, linked.2.2.2.1, linked.2.2.2.2⟩

theorem verifySuccessor_of_continues (continues : Continues digests records record) :
    verifySuccessor digests (segment digests slot records tail) record = .ok () := by
  unfold Continues at continues
  unfold verifySuccessor
  rw [lastRecord_segment]
  rcases last : records.getLast? with _ | last'
  · simp only [last] at continues ⊢
    rw [if_pos ⟨continues, record.chainStart.2.mp continues⟩]
  · simp only [last] at continues
    simp only [lastHash, lastEncoded_segment last, Option.map_some]
    rw [if_neg]
    rintro (broken | broken | broken | broken | broken)
    · exact broken continues.generation
    · exact broken (by rw [continues.hash])
    · exact absurd continues.cutoff (by omega)
    · exact absurd continues.reservation (by omega)
    · exact absurd continues.cursor (by omega)

theorem chained_concat (chained : Chained digests records)
    (continues : Continues digests records record) : Chained digests (records ++ [record]) := by
  rw [Chained, isChain_append]
  refine ⟨chained, isChain_singleton record, ?_⟩
  intro last lastMem first firstMem
  simp only [head?_singleton, Option.mem_def, Option.some.injEq] at firstMem
  rw [Option.mem_def] at lastMem
  simp only [Continues, lastMem] at continues
  exact firstMem ▸ continues

theorem overwrite_encode (last : LogRecord) (bytes : Bytes) :
    overwrite (last.encode digests) COMMIT_RECORD_BYTES bytes = last.encode digests ++ bytes := by
  rw [← length_encode digests last, overwrite_end]

variable {content : Bytes}

theorem update_objects_self {name : String} (present : objects name = some content) :
    update objects name (some content) = objects := by
  rw [← present, update_eq_self]

abbrev withSlot (objects : Objects String) (slot : Fin 2) (content : Bytes) : Objects String :=
  update objects (SLOT_NAMES slot) (some content)

theorem withSlot_self : withSlot objects slot content (SLOT_NAMES slot) = some content :=
  update_self _ _ _

theorem withSlot_other :
    withSlot objects slot content (SLOT_NAMES (1 - slot)) = objects (SLOT_NAMES (1 - slot)) :=
  update_of_ne (slotNames_ne slot) _ _

theorem withSlot_opposite :
    withSlot objects (1 - slot) content (SLOT_NAMES slot) = objects (SLOT_NAMES slot) :=
  update_of_ne (slotNames_ne slot).symm _ _

theorem verifyAndSync_triple (verifyOffset : ℕ) (verifyBytes : Bytes)
    (present : objects (SLOT_NAMES slot) = some content) :
    Preserves (· = objects) (verifyAndSync slot content.length verifyOffset verifyBytes) := by
  have fixed : Preserves (· = objects) (io (setLen (SLOT_NAMES slot) content.length)) := by
    apply Triple.mapError
    refine (setLen_triple present content.length).weaken ?_ ?_
    · rintro _ objects' rfl
      rw [resize_length, update_objects_self present]
    · rintro _ objects' (rfl | rfl)
      · rfl
      · rw [resize_length, update_objects_self present]
  apply Triple.bind fixed
  intro _
  apply Triple.bind (((Reads.readCall _).mapError _).triple objects)
  intro bytes
  by_cases mismatch : bytes ≠ verifyBytes
  · rw [if_pos mismatch]
    exact Triple.throw (fun _ outcome => outcome.1)
  · rw [if_neg mismatch]
    exact (((Reads.readCall _).mapError _).triple objects).consequence (fun _ same => same.1)
      (fun _ _ outcome => outcome.1) (fun _ _ => id)

variable {snapshot : LogSnapshot}

theorem append_rejected {error : GenerationLogError}
    (rejected : verifySuccessor digests snapshot record = .error error) (world : World String) :
    ∃ error', append digests snapshot record world = (.error error', world) := by
  unfold append
  split
  · exact ⟨_, rfl⟩
  · exact ⟨error, by simp [bind_apply, rejected]⟩

theorem append_accepted {target : Fin 2 × Bytes} (clean : snapshot.tail = .clean)
    (verified : verifySuccessor digests snapshot record = .ok ())
    (targeted : appendTarget snapshot (record.encode digests) = .ok target) :
    append digests snapshot record = publishRecord digests snapshot record target.1 target.2 := by
  unfold append
  rw [if_neg (by simp [clean]), verified, targeted]
  rfl

theorem encodeAll_concat (records : List LogRecord) (record : LogRecord) :
    encodeAll digests (records ++ [record]) =
      encodeAll digests records ++ record.encode digests := by
  simp [encodeAll]

theorem appendTarget_extend (room : records.length < MAX_SEGMENT_RECORDS) :
    appendTarget (segment digests slot records []) (record.encode digests) =
      .ok (slot, encodeAll digests (records ++ [record])) := by
  rw [appendTarget, if_neg (by simpa [recordCount, segment] using room),
    encodeAll_concat]
  rfl

theorem advanced_extend (room : records.length < MAX_SEGMENT_RECORDS) :
    (segment digests slot records []).advanced slot (segment digests slot records []).willRotate
        record (encodeAll digests (records ++ [record])) =
      segment digests slot (records ++ [record]) [] := by
  have stays : (segment digests slot records []).willRotate = false := by
    simpa [willRotate, recordCount, segment] using room
  rw [advanced, stays]
  simp [segment]

theorem append_extend_triple
    (present : objects (SLOT_NAMES slot) = some (encodeAll digests records))
    (room : records.length < MAX_SEGMENT_RECORDS) :
    Triple (· = objects) (append digests (segment digests slot records []) record)
      (fun snapshot objects' => Continues digests records record ∧
        snapshot = segment digests slot (records ++ [record]) [] ∧
        objects' = withSlot objects slot (encodeAll digests (records ++ [record])))
      (fun _ objects' => ∃ written, written <+: record.encode digests ∧
        (written ≠ [] → Continues digests records record) ∧
        objects' = withSlot objects slot (encodeAll digests records ++ written)) := by
  rcases verified : verifySuccessor digests (segment digests slot records []) record with
    error | _
  · intro world start
    rcases append_rejected verified world with ⟨error', rejected⟩
    rw [rejected]
    refine ⟨[], nil_prefix, fun nonempty => absurd rfl nonempty, ?_⟩
    rw [append_nil]
    exact start.trans (update_objects_self present).symm
  · have continues := continues_of_verifySuccessor verified
    rw [append_accepted tail_segment_clean verified (appendTarget_extend room)]
    refine Triple.bind (show Triple _ _ (fun _ objects' =>
      objects' = withSlot objects slot (encodeAll digests (records ++ [record]))) _ from ?_) ?_
    · rw [writeTarget, if_pos (show slot = (segment digests slot records []).activeSlot from rfl)]
      refine Triple.bind (Triple.mapError ((writeAt_triple present _ _).weakenCrash ?_)) ?_
      · rintro _ objects' ⟨kept, rfl⟩
        exact ⟨_, take_prefix kept _, fun _ => continues, by
          rw [segment, overwrite_end]⟩
      · intro _
        apply Triple.pure
        rintro objects' rfl
        rw [segment, overwrite_end, encodeAll_concat]
    intro verify
    refine Triple.bind ((verifyAndSync_triple verify.1 verify.2 withSlot_self).weakenCrash ?_) ?_
    · rintro _ objects' rfl
      exact ⟨_, prefix_refl _, fun _ => continues, by rw [encodeAll_concat]⟩
    · intro _
      apply Triple.pure
      rintro objects' rfl
      exact ⟨continues, advanced_extend room, rfl⟩

variable {last : LogRecord}

section

variable (full : records.length = MAX_SEGMENT_RECORDS) (lastRecord : records.getLast? = some last)

include full lastRecord

theorem appendTarget_rotate :
    appendTarget (segment digests slot records []) (record.encode digests) =
      .ok (1 - slot, encodeAll digests [last, record]) := by
  rw [appendTarget, if_pos (by simp [recordCount, segment, full]),
    lastEncoded_segment lastRecord]
  simp [encodeAll, segment]

theorem advanced_rotate : (segment digests slot records []).advanced (1 - slot)
        (segment digests slot records []).willRotate record (encodeAll digests [last, record]) =
      segment digests (1 - slot) [last, record] [] := by
  have rotates : (segment digests slot records []).willRotate = true := by
    simp [willRotate, recordCount, segment, full]
  rw [advanced, rotates, lastRecord_segment, lastRecord]
  simp [segment]

end

theorem encodeAll_pair (last record : LogRecord) :
    encodeAll digests [last, record] = last.encode digests ++ record.encode digests := by
  simp [encodeAll]

theorem take_encodeAll_pair (last record : LogRecord) :
    (encodeAll digests [last, record]).take COMMIT_RECORD_BYTES = last.encode digests := by
  rw [encodeAll_pair, take_left' (length_encode digests last)]

theorem drop_encodeAll_pair (last record : LogRecord) :
    (encodeAll digests [last, record]).drop COMMIT_RECORD_BYTES = record.encode digests := by
  rw [encodeAll_pair, drop_left' (length_encode digests last)]

/-- At the bound, an append rewrites the other slot with the bridge pair. The calls
before the cut leave it empty or with a prefix of the pair. -/
theorem writeTarget_rotate_triple (slot : Fin 2) (records : List LogRecord)
    (last record : LogRecord) (present : objects (SLOT_NAMES (1 - slot)) = some content) :
    Triple (· = objects)
      (writeTarget (segment digests slot records []) (record.encode digests) (1 - slot)
        (encodeAll digests [last, record]))
      (fun _ objects' => objects' = withSlot objects (1 - slot) (encodeAll digests [last, record]))
      (fun _ objects' => objects' = objects ∨ ∃ written,
        written <+: encodeAll digests [last, record] ∧
          objects' = withSlot objects (1 - slot) written) := by
  rw [writeTarget, if_neg (show 1 - slot ≠ (segment digests slot records []).activeSlot from
    one_sub_ne slot), take_encodeAll_pair, drop_encodeAll_pair]
  have cleared : ∀ bytes, update (withSlot objects (1 - slot) bytes) (SLOT_NAMES (1 - slot)) =
      update objects (SLOT_NAMES (1 - slot)) := by
    intro bytes
    funext value
    rw [update_idem]
  refine Triple.bind (Triple.mapError ((setLen_triple present 0).weakenCrash ?_)) ?_
  · rintro _ objects' (rfl | rfl)
    · exact Or.inl rfl
    · exact Or.inr ⟨[], nil_prefix, by rw [resize_zero]⟩
  intro _
  rw [resize_zero]
  refine Triple.bind
    (Triple.mapError ((writeAt_triple withSlot_self 0 (last.encode digests)).weakenCrash ?_)) ?_
  · rintro _ objects' ⟨kept, rfl⟩
    refine Or.inr ⟨(last.encode digests).take kept, ?_, ?_⟩
    · exact (List.take_prefix kept _).trans (prefix_append _ _)
    · rw [cleared, overwrite_nil]
  intro _
  rw [cleared, overwrite_nil]
  refine Triple.bind (Triple.mapError ((writeAt_triple withSlot_self COMMIT_RECORD_BYTES
    (record.encode digests)).weakenCrash ?_)) ?_
  · rintro _ objects' ⟨kept, rfl⟩
    refine Or.inr ⟨last.encode digests ++ (record.encode digests).take kept, ?_, ?_⟩
    · rw [encodeAll_pair]
      exact (prefix_append_right_inj _).mpr (List.take_prefix kept _)
    · rw [cleared, overwrite_encode]
  · intro _
    apply Triple.pure
    rintro objects' rfl
    rw [cleared, overwrite_encode, encodeAll_pair]

theorem append_rotate_triple (present : objects (SLOT_NAMES (1 - slot)) = some content)
    (full : records.length = MAX_SEGMENT_RECORDS) (lastRecord : records.getLast? = some last) :
    Triple (· = objects) (append digests (segment digests slot records []) record)
      (fun snapshot objects' => Continues digests records record ∧
        snapshot = segment digests (1 - slot) [last, record] [] ∧
        objects' = withSlot objects (1 - slot) (encodeAll digests [last, record]))
      (fun _ objects' => objects' = objects ∨ (Continues digests records record ∧
          ∃ written, written <+: encodeAll digests [last, record] ∧
            objects' = withSlot objects (1 - slot) written)) := by
  rcases verified : verifySuccessor digests (segment digests slot records []) record with
    error | _
  · intro world start
    rcases append_rejected verified world with ⟨error', rejected⟩
    rw [rejected]
    exact Or.inl start
  · have continues := continues_of_verifySuccessor verified
    rw [append_accepted tail_segment_clean verified (appendTarget_rotate full lastRecord)]
    refine Triple.bind ((writeTarget_rotate_triple slot records last record present).weakenCrash
        fun _ _ => Or.imp id fun written => ⟨continues, written⟩) fun verify => ?_
    refine Triple.bind ((verifyAndSync_triple verify.1 verify.2 withSlot_self).weakenCrash ?_) ?_
    · rintro _ objects' rfl
      exact Or.inr ⟨continues, _, prefix_refl _, rfl⟩
    · intro _
      apply Triple.pure
      rintro objects' rfl
      exact ⟨continues, advanced_rotate full lastRecord, rfl⟩

theorem Stores.of_prefix (chained : Chained digests records)
    (room : records.length < MAX_SEGMENT_RECORDS) (short : tail.length < COMMIT_RECORD_BYTES) :
    Stores digests (some (encodeAll digests records ++ tail)) records tail where
  content_eq := rfl
  chained := chained
  short := short
  bounded := by omega
  full full := by omega

theorem Stores.of_records (chained : Chained digests records)
    (bounded : records.length ≤ MAX_SEGMENT_RECORDS) :
    Stores digests (some (encodeAll digests records)) records [] where
  content_eq := by simp
  chained := chained
  short := by decide
  bounded := bounded
  full _ := rfl

theorem Stores.concat {record : LogRecord} (chained : Chained digests records)
    (continues : Continues digests records record) (room : records.length < MAX_SEGMENT_RECORDS) :
    Stores digests (some (encodeAll digests (records ++ [record]))) (records ++ [record]) [] := by
  apply of_records (chained_concat chained continues)
  rw [length_append]
  exact room

theorem Stores.clean {content : Option Bytes} (stored : Stores digests content records []) :
    content = some (encodeAll digests records) := by
  simpa using stored.content_eq

variable {extended : List LogRecord} {written : Bytes}

/-- Rewriting the selected slot with a continuation of its chain keeps the
arrangement. -/
theorem Shape.rewrite {tail tail' content : Bytes}
    (shape : Shape digests objects (.live slot records tail))
    (room : records.length < MAX_SEGMENT_RECORDS) (continued : records <+: extended)
    (stored : Stores digests (some content) extended tail') :
    Shape digests (withSlot objects slot content) (.live slot extended tail') := by
  rw [← @withSlot_self objects slot] at stored
  cases shape with
  | single _ nonempty vacant =>
    rw [← @withSlot_other objects slot content] at vacant
    refine single stored ?_ vacant
    rintro rfl
    exact nonempty (prefix_nil.mp continued)
  | bridged _ full _ _ => omega
  | rotated _ olderStored olderFull olderLast =>
    rcases continued with ⟨more, rfl⟩
    rw [← @withSlot_other objects slot content] at olderStored
    exact rotated stored olderStored olderFull olderLast

theorem prefix_encode_cases (prefixed : written <+: record.encode digests) :
    written = record.encode digests ∨ written.length < COMMIT_RECORD_BYTES := by
  have encodedLength := length_encode digests record
  rcases lt_or_eq_of_le prefixed.length_le with shorter | same
  · exact Or.inr (by omega)
  · exact Or.inl (prefixed.eq_of_length same)

theorem prefix_append_cases {front back : Bytes} (prefixed : written <+: front ++ back) :
    written <+: front ∨ ∃ tail, written = front ++ tail ∧ tail <+: back := by
  rcases prefixed with ⟨rest, split⟩
  rcases append_eq_append_iff.mp split with ⟨more, frontSplit, _⟩ | ⟨tail, longer, backSplit⟩
  · exact Or.inl ⟨more, frontSplit.symm⟩
  · exact Or.inr ⟨tail, longer, rest, backSplit.symm⟩

/-- The chain an append writes to: nothing yet, or the selected chain without a tail. -/
def View.Writable (slot : Fin 2) (records : List LogRecord) : View → Prop
  | .blank => slot = 0 ∧ records = []
  | .broken => False
  | .live slot' records' tail => slot' = slot ∧ records' = records ∧ tail = []

/-- The chain of the selected slot after a completed append. -/
def Advances (slot : Fin 2) (records : List LogRecord) (record : LogRecord) (slot' : Fin 2)
    (records' : List LogRecord) : Prop :=
  (records.length < MAX_SEGMENT_RECORDS ∧ slot' = slot ∧ records' = records ++ [record]) ∨
    (records.length = MAX_SEGMENT_RECORDS ∧
      ∃ last, records.getLast? = some last ∧ slot' = 1 - slot ∧ records' = [last, record])

/-- What a reader may see after an append that did not return. -/
inductive Interrupted (digests : Digests) (view : View) (slot : Fin 2)
    (records : List LogRecord) (record : LogRecord) : View → Prop where
  | kept : Interrupted digests view slot records record view
  | torn (tail : Bytes) (nonempty : records ≠ []) :
      Interrupted digests view slot records record (.live slot records tail)
  | broken (continues : Continues digests records record) :
      Interrupted digests view slot records record .broken
  | landed {slot' : Fin 2} {records' : List LogRecord}
      (continues : Continues digests records record)
      (advances : Advances slot records record slot' records') :
      Interrupted digests view slot records record (.live slot' records' [])

section

variable (stored : Stores digests (objects (SLOT_NAMES slot)) records [])
  (full : records.length = MAX_SEGMENT_RECORDS) (lastRecord : records.getLast? = some last)
  (continues : Continues digests records record)

include stored full lastRecord continues

theorem shape_of_rotated :
    Shape digests (withSlot objects (1 - slot) (encodeAll digests [last, record]))
      (.live (1 - slot) [last, record] []) := by
  have chained : Chained digests [last, record] := by
    simp only [Continues, lastRecord] at continues
    exact isChain_pair.mpr continues
  refine rotated ?_ ?_ full lastRecord
  · rw [withSlot_self]
    exact of_records chained (by simp [MAX_SEGMENT_RECORDS])
  · rw [one_sub_one_sub, withSlot_opposite]
    exact stored

theorem shape_of_rotation (prefixed : written <+: encodeAll digests [last, record]) :
    ∃ view, Interrupted digests (.live slot records []) slot records record view ∧
      Shape digests (withSlot objects (1 - slot) written) view := by
  have here := @withSlot_self objects (1 - slot) written
  have kept := stored
  rw [← @withSlot_opposite objects slot written] at kept
  rw [encodeAll_pair] at prefixed
  rcases prefix_append_cases prefixed with inBridge | ⟨tail, longer, inRecord⟩
  · rcases prefix_encode_cases inBridge with complete | torn
    · subst complete
      have bridge : Stores digests (some (last.encode digests)) [last] [] := by
        simpa [encodeAll] using of_records (isChain_singleton last) (by simp [MAX_SEGMENT_RECORDS])
      rw [← here] at bridge
      exact ⟨_, .kept, bridged kept full lastRecord bridge⟩
    · by_cases empty : written = []
      · refine ⟨_, .kept, single kept ?_ ?_⟩
        · rintro rfl
          simp [MAX_SEGMENT_RECORDS] at full
        · rw [here, empty]
          exact Or.inr rfl
      · have started : Stores digests (some written) [] written := by
          simpa [encodeAll] using of_prefix isChain_nil (by decide) torn
        rw [← here] at started
        exact ⟨_, .broken continues, tornBridge kept full started empty⟩
  · subst longer
    rcases prefix_encode_cases inRecord with complete | torn
    · subst complete
      rw [← encodeAll_pair]
      exact ⟨_, .landed continues (Or.inr ⟨full, last, lastRecord, rfl, rfl⟩),
        shape_of_rotated stored full lastRecord continues⟩
    · have bridge : Stores digests (some (last.encode digests ++ tail)) [last] tail := by
        simpa [encodeAll] using
          of_prefix (isChain_singleton last) (by simp [MAX_SEGMENT_RECORDS]) torn
      rw [← here] at bridge
      exact ⟨_, .kept, bridged kept full lastRecord bridge⟩

end

theorem Shape.stored (shape : Shape digests objects (.live slot records tail)) :
    Stores digests (objects (SLOT_NAMES slot)) records tail := by
  cases shape with
  | single stored _ _ => exact stored
  | bridged stored _ _ _ => exact stored
  | rotated stored _ _ _ => exact stored

theorem Shape.nonempty (shape : Shape digests objects (.live slot records tail)) :
    records ≠ [] := by
  cases shape with
  | single _ nonempty _ => exact nonempty
  | bridged _ full _ _ =>
    rintro rfl
    simp [MAX_SEGMENT_RECORDS] at full
  | rotated _ _ _ _ => exact cons_ne_nil _ _

variable {view : View}

theorem View.Writable.cases (writable : view.Writable slot records) :
    view = .blank ∧ slot = 0 ∧ records = [] ∨ view = .live slot records [] := by
  cases view with
  | blank => exact .inl ⟨rfl, writable⟩
  | broken => exact writable.elim
  | live slot' records' tail =>
    rcases writable with ⟨rfl, rfl, rfl⟩
    exact .inr rfl

section

variable (shape : Shape digests objects view) (writable : view.Writable slot records)

include shape writable

theorem Shape.chained_writable : Chained digests records := by
  rcases writable.cases with ⟨_, _, rfl⟩ | rfl
  · exact isChain_nil
  · exact shape.stored.chained

theorem Shape.write {tail content : Bytes} (room : records.length < MAX_SEGMENT_RECORDS)
    (continued : records <+: extended) (nonempty : extended ≠ [])
    (stored : Stores digests (some content) extended tail) :
    Shape digests (withSlot objects slot content) (.live slot extended tail) := by
  rcases writable.cases with ⟨rfl, _⟩ | rfl
  · rcases shape with ⟨vacant⟩
    rw [← @withSlot_self objects slot] at stored
    refine single stored nonempty ?_
    rw [withSlot_other]
    exact vacant _
  · exact shape.rewrite room continued stored

theorem shape_of_extension (room : records.length < MAX_SEGMENT_RECORDS)
    (continues : written ≠ [] → Continues digests records record)
    (prefixed : written <+: record.encode digests) :
    ∃ view', Interrupted digests view slot records record view' ∧
      Shape digests (withSlot objects slot (encodeAll digests records ++ written)) view' := by
  have chained := shape.chained_writable writable
  rcases prefix_encode_cases prefixed with complete | torn
  · have present : written ≠ [] := by
      rintro rfl
      have encodedLength := length_encode digests record
      rw [← complete] at encodedLength
      cases encodedLength
    have stored := Stores.concat chained (continues present) room
    rw [encodeAll_concat, ← complete] at stored
    exact ⟨_, .landed (continues present) (Or.inl ⟨room, rfl, rfl⟩),
      shape.write writable room (prefix_append _ _) (by simp) stored⟩
  · have stored := of_prefix chained room torn
    by_cases start : records = []
    · subst start
      rcases writable.cases with ⟨rfl, _⟩ | rfl
      · rcases shape with ⟨vacant⟩
        rw [← @withSlot_self objects slot] at stored
        have there := vacant (1 - slot)
        rw [← @withSlot_other objects slot (encodeAll digests [] ++ written)] at there
        by_cases untouched : written = []
        · refine ⟨_, .kept, blank ?_⟩
          intro other
          rcases eq_or_one_sub_eq slot other with rfl | rfl
          · rw [stored.content_eq, untouched]
            exact Or.inr rfl
          · exact there
        · exact ⟨_, .broken (continues untouched), tornStart stored untouched there⟩
      · exact absurd rfl shape.nonempty
    · exact ⟨_, .torn written start, shape.write writable room (prefix_refl _) start stored⟩

end

theorem exists_getLast?_of_full (full : records.length = MAX_SEGMENT_RECORDS) :
    ∃ last, records.getLast? = some last := by
  rw [← Option.isSome_iff_exists, getLast?_isSome]
  rintro rfl
  simp [MAX_SEGMENT_RECORDS] at full

theorem isSome_update {name : String} (present : ∀ other, (objects (SLOT_NAMES other)).isSome)
    (other : Fin 2) : (update objects name (some content) (SLOT_NAMES other)).isSome := by
  by_cases same : SLOT_NAMES other = name
  · rw [same, update_self]
    rfl
  · rw [update_of_ne same]
    exact present other

section

variable (shape : Shape digests objects view) (writable : view.Writable slot records)
  (present : ∀ other, (objects (SLOT_NAMES other)).isSome)

include shape writable present

theorem content_of_writable : Stores digests (objects (SLOT_NAMES slot)) records [] := by
  rcases writable.cases with ⟨rfl, rfl, rfl⟩ | rfl
  · rcases shape with ⟨vacant⟩
    rcases vacant 0 with absent | empty
    · have here := present 0
      rw [absent] at here
      cases here
    · exact of_empty empty
  · exact shape.stored

/-- An append from the snapshot of the current arrangement: when it returns, the
record ends the selected chain; when it does not, the outcome is one of `Interrupted`. -/
theorem append_triple :
    Triple (· = objects) (append digests (segment digests slot records []) record)
      (fun snapshot objects' => ∃ slot' records',
        Continues digests records record ∧ Advances slot records record slot' records' ∧
        snapshot = segment digests slot' records' [] ∧
        Shape digests objects' (.live slot' records' []) ∧
        ∀ other, (objects' (SLOT_NAMES other)).isSome)
      (fun _ objects' => ∃ view', Interrupted digests view slot records record view' ∧
        Shape digests objects' view') := by
  have stored := content_of_writable shape writable present
  rcases lt_or_eq_of_le stored.bounded with room | full
  · refine (append_extend_triple stored.clean room).weaken ?_ ?_
    · rintro snapshot objects' ⟨continues, rfl, rfl⟩
      have extended := Stores.concat stored.chained continues room
      exact ⟨slot, _, continues, Or.inl ⟨room, rfl, rfl⟩, rfl,
        shape.write writable room (prefix_append _ _) (by simp) extended,
        isSome_update present⟩
    · rintro error objects' ⟨written, prefixed, continues, rfl⟩
      exact shape_of_extension shape writable room continues prefixed
  · rcases exists_getLast?_of_full full with ⟨last, lastRecord⟩
    rcases Option.isSome_iff_exists.mp (present (1 - slot)) with ⟨content, other⟩
    have current : view = .live slot records [] := by
      rcases writable.cases with ⟨_, _, rfl⟩ | current
      · cases full
      · exact current
    refine (append_rotate_triple other full lastRecord).weaken ?_ ?_
    · rintro snapshot objects' ⟨continues, rfl, rfl⟩
      exact ⟨1 - slot, _, continues, Or.inr ⟨full, last, lastRecord, rfl, rfl⟩, rfl,
        shape_of_rotated stored full lastRecord continues, isSome_update present⟩
    · rintro error objects' (rfl | ⟨continues, written, prefixed, rfl⟩)
      · exact ⟨view, .kept, shape⟩
      · rw [current]
        exact shape_of_rotation stored full lastRecord continues prefixed

end

theorem verifyAndSync_completes {offset : ℕ} (present : objects (SLOT_NAMES slot) = some content)
    (bounded : offset ≤ content.length) :
    Completes (verifyAndSync slot content.length offset (content.drop offset)) objects ()
      objects := by
  have sized := (Completes.setLen present content.length).mapError GenerationLogError.io
  rw [resize_length, update_objects_self present] at sized
  have range : offset + (content.drop offset).length = content.length := by
    rw [length_drop]
    omega
  have reread := (Completes.readExactAt present (le_of_eq range)).mapError GenerationLogError.io
  have same : content.slice offset (content.drop offset).length = content.drop offset := by
    rw [Bytes.slice, take_length]
  rw [same] at reread
  apply sized.bind
  apply reread.bind
  rw [if_neg (not_not.mpr rfl)]
  exact (Completes.syncFile present).mapError _

theorem publishRecord_completes {expected : Bytes} {offset : ℕ} {objects' : Objects String}
    (written : Completes (writeTarget snapshot (record.encode digests) slot expected) objects
      (offset, expected.drop offset) objects')
    (present : objects' (SLOT_NAMES slot) = some expected) (bounded : offset ≤ expected.length) :
    Completes (publishRecord digests snapshot record slot expected) objects
      (snapshot.advanced slot snapshot.willRotate record expected) objects' :=
  written.bind ((verifyAndSync_completes present bounded).bind (Completes.pure _ _))

theorem append_extend_completes
    (present : objects (SLOT_NAMES slot) = some (encodeAll digests records))
    (room : records.length < MAX_SEGMENT_RECORDS) (continues : Continues digests records record) :
    Completes (append digests (segment digests slot records []) record) objects
      (segment digests slot (records ++ [record]) [])
      (withSlot objects slot (encodeAll digests (records ++ [record]))) := by
  have written : Completes (writeTarget (segment digests slot records []) (record.encode digests)
      slot (encodeAll digests (records ++ [record]))) objects
      ((encodeAll digests records).length,
        (encodeAll digests (records ++ [record])).drop (encodeAll digests records).length)
      (withSlot objects slot (encodeAll digests (records ++ [record]))) := by
    have stored := Completes.writeAt present (encodeAll digests records).length
      (record.encode digests)
    rw [overwrite_end, ← encodeAll_concat] at stored
    rw [writeTarget, if_pos (show slot = (segment digests slot records []).activeSlot from rfl)]
    exact (stored.mapError _).bind (Completes.pure _ _)
  have bounded : (encodeAll digests records).length ≤
      (encodeAll digests (records ++ [record])).length := by
    rw [encodeAll_concat, length_append]
    omega
  have published := publishRecord_completes written withSlot_self bounded
  rw [advanced_extend room] at published
  rw [append_accepted tail_segment_clean (verifySuccessor_of_continues continues)
    (appendTarget_extend room)]
  exact published

theorem append_rotate_completes (present : objects (SLOT_NAMES (1 - slot)) = some content)
    (full : records.length = MAX_SEGMENT_RECORDS) (lastRecord : records.getLast? = some last)
    (continues : Continues digests records record) :
    Completes (append digests (segment digests slot records []) record) objects
      (segment digests (1 - slot) [last, record] [])
      (withSlot objects (1 - slot) (encodeAll digests [last, record])) := by
  have written : Completes (writeTarget (segment digests slot records []) (record.encode digests)
      (1 - slot) (encodeAll digests [last, record])) objects
      (0, (encodeAll digests [last, record]).drop 0)
      (withSlot objects (1 - slot) (encodeAll digests [last, record])) := by
    have emptied := Completes.setLen present 0
    rw [resize_zero] at emptied
    have bridged := Completes.writeAt
      (update_self (SLOT_NAMES (1 - slot)) (some []) objects) 0 (last.encode digests)
    rw [overwrite_nil, update_idem] at bridged
    have completed := Completes.writeAt
      (update_self (SLOT_NAMES (1 - slot)) (some (last.encode digests)) objects)
      COMMIT_RECORD_BYTES (record.encode digests)
    rw [overwrite_encode, update_idem, ← encodeAll_pair] at completed
    rw [writeTarget, if_neg (show 1 - slot ≠ (segment digests slot records []).activeSlot from
      one_sub_ne slot), take_encodeAll_pair, drop_encodeAll_pair, drop_zero]
    exact (emptied.mapError _).bind ((bridged.mapError _).bind ((completed.mapError _).bind
      (Completes.pure _ _)))
  have published := publishRecord_completes written withSlot_self (zero_le _)
  rw [advanced_rotate full lastRecord] at published
  rw [append_accepted tail_segment_clean (verifySuccessor_of_continues continues)
    (appendTarget_rotate full lastRecord)]
  exact published

theorem append_completes (shape : Shape digests objects view)
    (writable : view.Writable slot records) (present : ∀ other, (objects (SLOT_NAMES other)).isSome)
    (continues : Continues digests records record) : ∃ snapshot objects',
      Completes (append digests (segment digests slot records []) record) objects snapshot
        objects' := by
  have stored := content_of_writable shape writable present
  rcases lt_or_eq_of_le stored.bounded with room | full
  · exact ⟨_, _, append_extend_completes stored.clean room continues⟩
  · rcases exists_getLast?_of_full full with ⟨last, lastRecord⟩
    rcases Option.isSome_iff_exists.mp (present (1 - slot)) with ⟨content, other⟩
    exact ⟨_, _, append_rotate_completes other full lastRecord continues⟩

end Fastdup.Store
