import Fastdup.Store.GenerationLog.Maintain

/-!
# Histories of the Generation Log

A history interleaves slot creation, reloads, appends and repairs, each of which may be
interrupted at any storage call, with crashes of the writer. After a failed append the
writer has no snapshot until it reloads.

Behind the slots stands one chain that starts with generation one. `Holds` relates the
attempted appends to this chain: an acknowledged record is always on it, a failed one may
be. Every history keeps the slots in an arrangement that shows the end of the chain.
-/

namespace Fastdup.Store

open Library Format Program GenerationLog List

variable {digests : Digests}

/-- One call of `append`, and whether it returned. -/
structure Attempt where
  record : LogRecord
  acknowledged : Bool

/-- The stored objects, the writer's snapshot and the attempts so far, newest first. -/
structure LogState where
  objects : Objects String
  writer : Option LogSnapshot
  attempts : List Attempt

/-- A call of the log, each possibly cut short by a crash. -/
inductive LogEvent where
  | ensureSlotsExist (cut : Option Cut)
  | reload (cut : Option Cut)
  | append (record : LogRecord) (cut : Option Cut)
  | repairTail (expected : LogRecord) (cut : Option Cut)
  | crash

namespace LogState

def initial : LogState where
  objects := fun _ => none
  writer := none
  attempts := []

def reloaded (state : LogState) :
    Except GenerationLogError LogSnapshot × World String → LogState
  | (.ok snapshot, world) => { state with objects := world.objects, writer := some snapshot }
  | (.error _, world) => { state with objects := world.objects, writer := none }

/-- An append whose outcome is not known leaves the writer without a snapshot. -/
def appended (state : LogState) (record : LogRecord) :
    Except GenerationLogError LogSnapshot × World String → LogState
  | (.ok snapshot, world) => ⟨world.objects, some snapshot, ⟨record, true⟩ :: state.attempts⟩
  | (.error _, world) => ⟨world.objects, none, ⟨record, false⟩ :: state.attempts⟩

def step (digests : Digests) (state : LogState) : LogEvent → LogState
  | .ensureSlotsExist cut =>
    { state with objects := (ensureSlotsExist ⟨state.objects, cut⟩).2.objects }
  | .reload cut => state.reloaded (loadForAppend digests ⟨state.objects, cut⟩)
  | .append record cut =>
    match state.writer with
    | none => state
    | some snapshot =>
      state.appended record (GenerationLog.append digests snapshot record ⟨state.objects, cut⟩)
  | .repairTail expected cut =>
    { state with objects := (GenerationLog.repairTail digests expected
        ⟨state.objects, cut⟩).2.objects }
  | .crash => { state with writer := none }

/-- The log from an empty storage on. -/
def run (digests : Digests) (events : List LogEvent) : LogState :=
  events.foldl (step digests) initial

end LogState

/-- The chains that a sequence of attempts, newest first, may have produced. -/
inductive Holds (digests : Digests) : List Attempt → List LogRecord → Prop where
  | start : Holds digests [] []
  | acknowledged {attempts : List Attempt} {chain : List LogRecord} {record : LogRecord}
      (before : Holds digests attempts chain) (continues : Continues digests chain record) :
      Holds digests (⟨record, true⟩ :: attempts) (chain ++ [record])
  | lost {attempts : List Attempt} {chain : List LogRecord} (record : LogRecord)
      (before : Holds digests attempts chain) :
      Holds digests (⟨record, false⟩ :: attempts) chain
  | landed {attempts : List Attempt} {chain : List LogRecord} {record : LogRecord}
      (before : Holds digests attempts chain) (continues : Continues digests chain record) :
      Holds digests (⟨record, false⟩ :: attempts) (chain ++ [record])

variable {attempts : List Attempt} {chain : List LogRecord}

theorem Holds.chained (holds : Holds digests attempts chain) : Chained digests chain := by
  induction holds with
  | start => exact isChain_nil
  | acknowledged _ continues ih | landed _ continues ih => exact chained_concat ih continues
  | lost _ _ ih => exact ih

theorem Holds.attempted (holds : Holds digests attempts chain) {record : LogRecord}
    (onChain : record ∈ chain) : record ∈ attempts.map Attempt.record := by
  induction holds with
  | start => cases onChain
  | acknowledged _ _ ih | landed _ _ ih =>
    rcases mem_append.mp onChain with earlier | newest
    · exact mem_cons_of_mem _ (ih earlier)
    · rw [mem_singleton.mp newest]
      exact mem_cons_self
  | lost _ _ ih => exact mem_cons_of_mem _ (ih onChain)

/-- The last record that a caller was told is durable. -/
def newestAcknowledged (attempts : List Attempt) : Option LogRecord :=
  (attempts.find? Attempt.acknowledged).map Attempt.record

/-- The records whose append failed after the newest acknowledged one, oldest first. -/
def failedSince (attempts : List Attempt) : List LogRecord :=
  ((attempts.takeWhile (fun attempt => !attempt.acknowledged)).map Attempt.record).reverse

theorem suffix_concat {ending chain : List LogRecord} {record : LogRecord}
    (suffix : ending <:+ chain) : ending ++ [record] <:+ chain ++ [record] :=
  (suffix_append_inj_of_length_eq rfl).mpr ⟨suffix, rfl⟩

/-- The chain ends with the newest acknowledged record followed by failed records. -/
theorem Holds.ending (holds : Holds digests attempts chain) :
    ∃ failed, failed.Sublist (failedSince attempts) ∧
      (newestAcknowledged attempts).toList ++ failed <:+ chain ∧
      (newestAcknowledged attempts = none → failed = chain) := by
  induction holds with
  | start => exact ⟨[], List.Sublist.refl _, suffix_refl _, fun _ => rfl⟩
  | @acknowledged attempts chain record _ _ _ =>
    refine ⟨[], nil_sublist _, ?_, ?_⟩
    · exact suffix_append chain [record]
    · intro missing
      cases missing
  | @lost attempts chain record _ ih =>
    rcases ih with ⟨failed, since, ending, initially⟩
    refine ⟨failed, ?_, ending, initially⟩
    have grown : failedSince (⟨record, false⟩ :: attempts) = failedSince attempts ++ [record] := by
      simp [failedSince]
    rw [grown]
    exact since.trans (sublist_append_left _ _)
  | @landed attempts chain record _ _ ih =>
    rcases ih with ⟨failed, since, ending, initially⟩
    refine ⟨failed ++ [record], ?_, ?_, ?_⟩
    · have grown : failedSince (⟨record, false⟩ :: attempts) =
          failedSince attempts ++ [record] := by
        simp [failedSince]
      rw [grown]
      exact since.append (List.Sublist.refl _)
    · rw [← append_assoc]
      exact suffix_concat ending
    · intro missing
      rw [initially missing]

/-- A reader of the arrangement sees the end of the chain. -/
def View.Shows (chain : List LogRecord) : View → Prop
  | .blank => chain = []
  | .broken => True
  | .live _ records _ => records <:+ chain

/-- The slots hold the chain, and the cached state agrees with them. -/
structure Tracks (digests : Digests) (state : LogState) (view : View)
    (chain : List LogRecord) : Prop where
  shape : Shape digests state.objects view
  holds : Holds digests state.attempts chain
  shows : view.Shows chain
  present : ∀ snapshot, state.writer = some snapshot →
    ∀ slot, (state.objects (SLOT_NAMES slot)).isSome
  current : ∀ snapshot, state.writer = some snapshot → snapshot.tail = .clean →
    view.Opens digests snapshot

theorem tracks_initial : Tracks digests .initial .blank [] where
  shape := .blank (fun _ => Or.inl rfl)
  holds := .start
  shows := rfl
  present _ missing := by cases missing
  current _ missing := by cases missing

section Step

variable {state : LogState} {view : View} {records records' : List LogRecord} {slot slot' : Fin 2}
  {record : LogRecord} {objects : Objects String}

theorem getLast?_of_suffix {ending : List LogRecord} (suffix : ending <:+ chain)
    (nonempty : ending ≠ []) : chain.getLast? = ending.getLast? := by
  rcases suffix with ⟨front, rfl⟩
  rw [getLast?_append_of_ne_nil _ nonempty]

theorem getLast?_of_writable (shape : Shape digests objects view) (shows : view.Shows chain)
    (writable : view.Writable slot records) : chain.getLast? = records.getLast? := by
  rcases writable.cases with ⟨rfl, _, rfl⟩ | rfl
  · rw [shows]
  · exact getLast?_of_suffix shows shape.nonempty

theorem suffix_of_writable (shows : view.Shows chain) (writable : view.Writable slot records) :
    records <:+ chain := by
  rcases writable.cases with ⟨_, _, rfl⟩ | rfl
  · exact nil_suffix
  · exact shows

theorem continues_congr (same : chain.getLast? = records.getLast?)
    (continues : Continues digests records record) : Continues digests chain record := by
  unfold Continues at continues ⊢
  rw [same]
  exact continues

/-- After a completed append the selected slot shows the end of the longer chain. -/
theorem Advances.suffix (advances : Advances slot records record slot' records')
    (suffix : records <:+ chain) : records' <:+ chain ++ [record] := by
  rcases advances with ⟨_, _, rfl⟩ | ⟨_, last, lastRecord, _, rfl⟩
  · exact suffix_concat suffix
  · rcases getLast?_eq_some_iff.mp lastRecord with ⟨front, rfl⟩
    have bridge : [last] <:+ chain := (suffix_append front [last]).trans suffix
    exact suffix_concat bridge

section

variable (tracks : Tracks digests state view chain)

include tracks

theorem Tracks.provisioned (provisioned : Provisioned state.objects objects) :
    Tracks digests { state with objects := objects } view chain where
  __ := tracks
  shape := provisioned.shape tracks.shape
  present snapshot writer slot := provisioned.isSome (tracks.present snapshot writer slot)

theorem Tracks.withoutWriter : Tracks digests { state with writer := none } view chain where
  __ := tracks
  present _ missing := by cases missing
  current _ missing := by cases missing

theorem Tracks.reload (cut : Option Cut) :
    Tracks digests (state.step digests (.reload cut)) view chain := by
  have outcome := loadForAppend_triple tracks.shape ⟨state.objects, cut⟩ rfl
  simp only [LogState.step]
  revert outcome
  rcases loadForAppend digests ⟨state.objects, cut⟩ with ⟨error | snapshot, world⟩
  · intro provisioned
    exact (tracks.provisioned provisioned).withoutWriter
  · rintro ⟨provisioned, present, opens⟩
    have moved := tracks.provisioned provisioned
    refine { moved with present := ?_, current := ?_ }
    · intro _ _
      exact present
    · rintro snapshot' writer _
      cases writer
      exact opens

/-- A repair keeps the chain; a writer that held the dropped tail stays unusable. -/
theorem Tracks.repairTail (expected : LogRecord) (cut : Option Cut) :
    ∃ view', Tracks digests (state.step digests (.repairTail expected cut)) view' chain := by
  have settled : Triple (· = state.objects) (GenerationLog.repairTail digests expected)
      (fun _ objects' => ∃ view', Tracks digests { state with objects := objects' } view' chain)
      (fun _ objects' =>
        ∃ view', Tracks digests { state with objects := objects' } view' chain) := by
    have repaired : ∀ {objects' : Objects String} {slot : Fin 2} {records : List LogRecord}
        {tail : Bytes}, view = .live slot records tail →
        objects' = Function.update state.objects (SLOT_NAMES slot)
          (some (encodeAll digests records)) →
        ∃ view', Tracks digests { state with objects := objects' } view' chain := by
      rintro objects' slot records tail rfl rfl
      refine ⟨.live slot records [], tracks.shape.repair, tracks.holds, tracks.shows, ?_, ?_⟩
      · intro snapshot writer
        exact isSome_update (tracks.present snapshot writer)
      · intro snapshot writer clean
        have opens := tracks.current snapshot writer clean
        rcases opens.writable clean with ⟨slot', records', same, rfl, rfl, _⟩
        exact same
    refine (repairTail_triple tracks.shape expected).weaken ?_ ?_
    · rintro _ objects' ⟨slot, records, tail, live, _, same⟩
      exact repaired live same
    · rintro _ objects' (rfl | ⟨slot, records, tail, live, same⟩)
      · exact ⟨view, tracks⟩
      · exact repaired live same
  exact Triple.always settled rfl

/-- An append that did not return leaves the old chain or the chain with its record. -/
theorem Tracks.interrupted {view' : View} (writable : view.Writable slot records)
    (interrupted : Interrupted digests view slot records record view')
    (shape : Shape digests objects view') :
    ∃ chain', Tracks digests ⟨objects, none, ⟨record, false⟩ :: state.attempts⟩ view' chain' := by
  have last := getLast?_of_writable tracks.shape tracks.shows writable
  have suffix := suffix_of_writable tracks.shows writable
  cases interrupted with
  | kept => exact ⟨chain, shape, .lost record tracks.holds, tracks.shows, nofun, nofun⟩
  | torn tail _ => exact ⟨chain, shape, .lost record tracks.holds, suffix, nofun, nofun⟩
  | broken _ => exact ⟨chain, shape, .lost record tracks.holds, trivial, nofun, nofun⟩
  | landed continues advances =>
    exact ⟨chain ++ [record], shape, .landed tracks.holds (continues_congr last continues),
      advances.suffix suffix, nofun, nofun⟩

theorem Tracks.append (record : LogRecord) (cut : Option Cut) :
    ∃ view' chain', Tracks digests (state.step digests (.append record cut)) view' chain' := by
  simp only [LogState.step]
  rcases writer : state.writer with _ | snapshot
  · exact ⟨view, chain, tracks⟩
  by_cases clean : snapshot.tail = .clean
  · rcases (tracks.current snapshot writer clean).writable clean with
      ⟨slot, records, rfl, writable⟩
    have triple : Triple (· = state.objects)
        (GenerationLog.append digests (segment digests slot records []) record) _ _ :=
      append_triple tracks.shape writable (tracks.present _ writer)
    have outcome := triple ⟨state.objects, cut⟩ rfl
    revert outcome
    simp only
    rcases GenerationLog.append digests (segment digests slot records []) record
      ⟨state.objects, cut⟩ with ⟨error | snapshot', world⟩
    · rintro ⟨view', interrupted, shape⟩
      exact ⟨view', tracks.interrupted writable interrupted shape⟩
    · rintro ⟨slot', records', continues, advances, rfl, shape, found⟩
      have last := getLast?_of_writable tracks.shape tracks.shows writable
      have suffix := suffix_of_writable tracks.shows writable
      refine ⟨.live slot' records' [], chain ++ [record], shape,
        .acknowledged tracks.holds (continues_congr last continues), advances.suffix suffix,
        fun _ _ => found, ?_⟩
      rintro snapshot written _
      cases written
      rfl
  · -- A snapshot with a tail is refused before the first storage call.
    simp only [GenerationLog.append, if_pos clean, throw_apply, LogState.appended]
    exact ⟨view, chain, tracks.shape, .lost record tracks.holds, tracks.shows, nofun, nofun⟩

/-- Every call, also one that is cut, leaves slots that the chain explains. -/
theorem Tracks.step (event : LogEvent) :
    ∃ view' chain', Tracks digests (state.step digests event) view' chain' := by
  cases event with
  | ensureSlotsExist cut =>
    have created : Triple (· = state.objects) ensureSlotsExist
        (fun _ => Provisioned state.objects) (fun _ => Provisioned state.objects) :=
      ensureSlotsExist_triple.weaken (fun _ _ outcome => outcome.1) (fun _ _ => id)
    exact ⟨view, chain, tracks.provisioned (created.always rfl)⟩
  | reload cut => exact ⟨view, chain, tracks.reload cut⟩
  | append record cut => exact tracks.append record cut
  | repairTail expected cut =>
    rcases tracks.repairTail expected cut with ⟨view', tracks'⟩
    exact ⟨view', chain, tracks'⟩
  | crash => exact ⟨view, chain, tracks.withoutWriter⟩

end

theorem tracks_run (digests : Digests) (events : List LogEvent) :
    ∃ view chain, Tracks digests (.run digests events) view chain := by
  induction events using List.reverseRecOn with
  | nil => exact ⟨.blank, [], tracks_initial⟩
  | append_singleton events event ih =>
    rcases ih with ⟨view, chain, tracks⟩
    rw [LogState.run, foldl_concat]
    exact tracks.step event

end Step

end Fastdup.Store
