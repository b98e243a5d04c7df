import Fastdup.Appliance.CommitWriter.Batches

/-!
# Encodable commits

Which batches a commit flushes depends on the lengths of its Chunks only. A commit with a given
compressor therefore either publishes exactly these batches or fails at one of them, and every
compressor gets through if and only if each batch fits.
-/

namespace Fastdup.Appliance.AdaptiveCommitWriter

open Library Checked Format Format.Container List Nat Bytes

/-- Publishes a batch as it is. -/
def collect (_ : ℕ) (batch : Batch) : Except FormatError Batch :=
  .ok batch

def batches (calls : List CommitCall) : Except CommitWriterError (List Batch) :=
  commit collect calls

variable {next : CommitCall} {calls : List CommitCall}

section Following

variable {Container : Type} (encode : ℕ → Batch → Except FormatError Container)

/-- The writer is where the batches are, and has published each of them. -/
structure Mirrors (writer : AdaptiveCommitWriter Container) (batcher : AdaptiveCommitWriter Batch) :
    Prop where
  seen : writer.seen = batcher.seen
  chunks : writer.chunks = batcher.chunks
  payloadBytes : writer.payloadBytes = batcher.payloadBytes
  placement : writer.placement = batcher.placement
  advanced : writer.advanced = batcher.advanced
  published : List.Forall₂ (fun flushed container => encode flushed.2 flushed.1 = .ok container)
    batcher.published.zipIdx writer.published

/-- The result mirrors the batches, or fails at one of them. -/
def Follows (result : Except CommitWriterError (AdaptiveCommitWriter Container))
    (batcher : AdaptiveCommitWriter Batch) : Prop :=
  (∃ writer, result = .ok writer ∧ Mirrors encode writer batcher) ∨
    ∃ ordinal batch error, batcher.published[ordinal]? = some batch ∧
      encode ordinal batch = .error error ∧ result = .error (.format error)

variable {encode} {writer : AdaptiveCommitWriter Container}
  {before middle after : AdaptiveCommitWriter Batch}

theorem mirrors_self (batcher : AdaptiveCommitWriter Batch) : Mirrors collect batcher batcher := by
  refine ⟨rfl, rfl, rfl, rfl, rfl, forall₂_iff_get.mpr ⟨by simp, ?_⟩⟩
  simp [collect]

theorem Follows.bind {result : Except CommitWriterError (AdaptiveCommitWriter Container)}
    {next : AdaptiveCommitWriter Container →
      Except CommitWriterError (AdaptiveCommitWriter Container)}
    (follows : Follows encode result middle) (later : middle.published <+: after.published)
    (continues : ∀ writer, Mirrors encode writer middle → Follows encode (next writer) after) :
    Follows encode (result >>= next) after := by
  rcases follows with ⟨writer, rfl, mirrors⟩ | ⟨ordinal, batch, error, published, failed, rfl⟩
  · exact continues writer mirrors
  · obtain ⟨rest, same⟩ := later
    have inside := (List.getElem?_eq_some_iff.mp published).1
    refine .inr ⟨ordinal, batch, error, ?_, failed, rfl⟩
    rw [← same, getElem?_append_left inside, published]

section

variable (mirrors : Mirrors encode writer before)

include mirrors

theorem Mirrors.flush :
    ∃ after, before.flush collect = .ok after ∧ before.published <+: after.published ∧
      Follows encode (writer.flush encode) after := by
  unfold AdaptiveCommitWriter.flush
  by_cases empty : before.chunks = []
  · rw [if_pos empty, if_pos (mirrors.chunks.trans empty)]
    exact ⟨before, rfl, prefix_rfl, .inl ⟨writer, rfl, mirrors⟩⟩
  · have occupied : writer.chunks ≠ [] := mirrors.chunks ▸ empty
    have sameBatch : writer.batch = before.batch := by
      rw [AdaptiveCommitWriter.batch, AdaptiveCommitWriter.batch, mirrors.chunks, mirrors.advanced]
    have sameOrdinal : writer.published.length = before.published.length := by
      rw [← mirrors.published.length_eq, length_zipIdx]
    rw [if_neg empty, if_neg occupied, sameBatch, sameOrdinal]
    refine ⟨_, rfl, prefix_append _ _, ?_⟩
    · cases encoded : encode before.published.length before.batch with
      | error error =>
        refine .inr ⟨before.published.length, before.batch, error, ?_, encoded, rfl⟩
        exact getElem?_concat_length
      | ok container =>
        refine .inl ⟨_, rfl, mirrors.seen, rfl, rfl, mirrors.placement, mirrors.advanced, ?_⟩
        rw [zipIdx_append]
        refine rel_append mirrors.published (.cons ?_ .nil)
        simpa using encoded

theorem Mirrors.pushNew (chunk : PrehashedChunk) :
    ∃ after, before.pushNew collect chunk = .ok after ∧ before.published <+: after.published ∧
      Follows encode (writer.pushNew encode chunk) after := by
  have buffered : ∀ (writer : AdaptiveCommitWriter Container)
    (batcher : AdaptiveCommitWriter Batch),
      Mirrors encode writer batcher → Mirrors encode (writer.buffer chunk)
        (batcher.buffer chunk) := by
    intro writer batcher same
    refine ⟨same.seen, ?_, ?_, same.placement, same.advanced, same.published⟩
    · rw [buffer, buffer, same.chunks]
    · rw [buffer, buffer, same.payloadBytes]
  suffices flushed : ∃ middle, before.flushFor collect chunk.length = .ok middle ∧
      before.published <+: middle.published ∧ Follows encode (writer.flushFor encode chunk.length)
        middle by
    obtain ⟨middle, ran, later, follows⟩ := flushed
    refine ⟨middle.buffer chunk, bind_ok.mpr ⟨middle, ran, rfl⟩, later, ?_⟩
    refine follows.bind prefix_rfl ?_
    intro next same
    exact .inl ⟨_, rfl, buffered next middle same⟩
  unfold flushFor
  rw [mirrors.chunks, mirrors.payloadBytes]
  split
  · exact mirrors.flush
  · exact ⟨before, rfl, prefix_rfl, .inl ⟨writer, rfl, mirrors⟩⟩

theorem Mirrors.remember (chunk : PrehashedChunk) :
    Mirrors encode (writer.remember chunk) (before.remember chunk) := by
  refine { mirrors with seen := ?_ }
  rw [AdaptiveCommitWriter.remember, AdaptiveCommitWriter.remember, mirrors.seen]

theorem Mirrors.push {chunk : PrehashedChunk} {reusable : Bool}
    (ran : before.push collect chunk reusable = .ok after) :
    before.published <+: after.published ∧ Follows encode (writer.push encode chunk reusable)
      after := by
  unfold AdaptiveCommitWriter.push at ran ⊢
  rw [mirrors.seen]
  cases known : before.seen chunk.chunkId with
  | some previous =>
    simp only [known] at ran ⊢
    split at ran
    · cases ran
    · rename_i same
      cases ran
      rw [if_neg same]
      exact ⟨prefix_rfl, .inl ⟨writer, rfl, mirrors⟩⟩
  | none =>
    simp only [known] at ran ⊢
    split at ran
    · rename_i located
      cases ran
      rw [if_pos located]
      exact ⟨prefix_rfl, .inl ⟨_, rfl, mirrors.remember chunk⟩⟩
    · rename_i located
      rw [if_neg located]
      obtain ⟨result, pushed, later, follows⟩ := (mirrors.remember chunk).pushNew chunk
      rw [pushed] at ran
      cases ran
      exact ⟨later, follows⟩

theorem Mirrors.changeMode (placement : ContainerPlacement) (advanced : Bool) :
    ∃ after, before.changeMode collect placement advanced = .ok after ∧
      before.published <+: after.published ∧
      Follows encode (writer.changeMode encode placement advanced) after := by
  unfold AdaptiveCommitWriter.changeMode
  rw [mirrors.placement, mirrors.advanced]
  split
  · obtain ⟨middle, ran, later, follows⟩ := mirrors.flush
    refine ⟨_, bind_ok.mpr ⟨middle, ran, rfl⟩, later, ?_⟩
    refine follows.bind prefix_rfl ?_
    intro next same
    exact .inl ⟨_, rfl, { same with placement := rfl, advanced := rfl }⟩
  · exact ⟨before, rfl, prefix_rfl, .inl ⟨writer, rfl, mirrors⟩⟩

end

section

variable {Item : Type}
  {batchStep : AdaptiveCommitWriter Batch → Item →
    Except CommitWriterError (AdaptiveCommitWriter Batch)}
  (grows : ∀ before after item, batchStep before item = .ok after →
    before.published <+: after.published)

include grows

theorem foldlM_grows {items : List Item} (ran : items.foldlM batchStep before = .ok after) :
    before.published <+: after.published :=
  @foldlM_keeps _ _ _ _ items batchStep (fun batcher => before.published <+: batcher.published)
    (fun _ _ _ _ kept moved => kept.trans (grows _ _ _ moved)) _ prefix_rfl ran

theorem follows_foldlM {step : AdaptiveCommitWriter Container → Item →
      Except CommitWriterError (AdaptiveCommitWriter Container)}
    (steps : ∀ writer before after item, Mirrors encode writer before →
      batchStep before item = .ok after → Follows encode (step writer item) after)
    (items : List Item) (mirrors : Mirrors encode writer before)
    (ran : items.foldlM batchStep before = .ok after) :
    Follows encode (items.foldlM step writer) after := by
  induction items generalizing writer before with
  | nil =>
    cases ran
    exact .inl ⟨writer, rfl, mirrors⟩
  | cons item rest ih =>
    rw [foldlM_cons, bind_ok] at ran
    obtain ⟨middle, first, others⟩ := ran
    exact (steps writer before middle item mirrors first).bind (foldlM_grows grows others)
      (fun next same => ih same others)

end

theorem Mirrors.call (mirrors : Mirrors encode writer before)
    (ran : before.call collect next = .ok after) :
    before.published <+: after.published ∧ Follows encode (writer.call encode next) after := by
  cases next with
  | push chunk reusable => exact mirrors.push ran
  | beginInode placement advanced residue =>
    obtain ⟨middle, changed, pushed⟩ := bind_ok.mp ran
    obtain ⟨_, same, later, follows⟩ := mirrors.changeMode placement advanced
    cases changed.symm.trans same
    have grows (before after : AdaptiveCommitWriter Batch) (staged : PrehashedChunk × Bool)
        (ran : before.push collect staged.1 staged.2 = .ok after) :
        before.published <+: after.published :=
      ((mirrors_self before).push ran).1
    have pushedLater := foldlM_grows grows pushed
    refine ⟨later.trans pushedLater, follows.bind pushedLater ?_⟩
    intro next mirrorsNext
    exact follows_foldlM grows (fun _ _ _ _ same moved => (same.push moved).2) residue mirrorsNext
      pushed

variable (encode) in
theorem commit_follows {flushed : List Batch} (collected : batches calls = .ok flushed) :
    (∃ containers, commit encode calls = .ok containers ∧
      List.Forall₂ (fun flushed container => encode flushed.2 flushed.1 = .ok container)
        flushed.zipIdx containers) ∨ ∃ ordinal batch error, flushed[ordinal]? = some batch ∧
        encode ordinal batch = .error error ∧ commit encode calls = .error (.format error) := by
  obtain ⟨called, folded, rest⟩ := bind_ok.mp collected
  obtain ⟨last, final, returned⟩ := bind_ok.mp rest
  cases pure_ok.mp returned
  have start : Mirrors encode (new : AdaptiveCommitWriter Container) new :=
    ⟨rfl, rfl, rfl, rfl, rfl, .nil⟩
  have follows : Follows encode (calls.foldlM (fun writer next => writer.call encode next) new >>=
      fun writer => writer.flush encode) last := by
    have grows (before after : AdaptiveCommitWriter Batch) (next : CommitCall)
        (moved : before.call collect next = .ok after) : before.published <+: after.published :=
      ((mirrors_self before).call moved).1
    have ran := follows_foldlM grows (fun _ _ _ _ same moved => (same.call moved).2) calls start
      folded
    obtain ⟨_, same, later, _⟩ := (mirrors_self called).flush
    cases final.symm.trans same
    refine ran.bind later ?_
    intro writer mirrors
    obtain ⟨_, again, _, follows⟩ := mirrors.flush
    cases final.symm.trans again
    exact follows
  have asBind : commit encode calls =
      (calls.foldlM (fun writer next => writer.call encode next) new >>=
        fun writer => writer.flush encode) >>= fun flushed => pure flushed.published := by
    rw [bind_assoc]
    rfl
  rw [asBind]
  rcases follows with ⟨writer, same, mirrors⟩ | ⟨ordinal, batch, error, published, failed, same⟩
  · exact .inl ⟨writer.published, by rw [same]; rfl, mirrors.published⟩
  · exact .inr ⟨ordinal, batch, error, published, failed, by rw [same]; rfl⟩

end Following

def offered : CommitCall → List PrehashedChunk
  | .beginInode _ _ residue => residue.map Prod.fst
  | .push chunk _ => [chunk]

/-- The offered Chunks have valid lengths, and one identity has one length. -/
structure Admissible (chunks : List PrehashedChunk) : Prop where
  valid : ∀ chunk ∈ chunks, chunk.Valid
  lengths : ∀ chunk ∈ chunks, ∀ other ∈ chunks, chunk.chunkId = other.chunkId →
    chunk.length = other.length

/-- What holds of the writer while it buffers admissible Chunks. -/
structure Buffering (chunks : List PrehashedChunk) (batcher : AdaptiveCommitWriter Batch) :
    Prop where
  seen : ∀ chunkId length, batcher.seen chunkId = some length →
    ∃ chunk ∈ chunks, chunk.chunkId = chunkId ∧ chunk.length = length
  buffered : ∀ chunk ∈ batcher.chunks, chunk.Valid ∧ batcher.seen chunk.chunkId ≠ none
  distinct : (batcher.chunks.map PrehashedChunk.chunkId).Nodup
  published : ∀ batch ∈ batcher.published, batch.Valid

section Buffers

variable {chunks : List PrehashedChunk} {batcher : AdaptiveCommitWriter Batch}

theorem flush_collect (buffering : Buffering chunks batcher) :
    ∃ next, batcher.flush collect = .ok next ∧ Buffering chunks next ∧ next.seen = batcher.seen ∧
      next.chunks = [] := by
  unfold flush
  by_cases empty : batcher.chunks = []
  · rw [if_pos empty]
    exact ⟨batcher, rfl, buffering, rfl, empty⟩
  · rw [if_neg empty]
    refine ⟨_, rfl, ⟨buffering.seen, nofun, nodup_nil, ?_⟩, rfl, rfl⟩
    exact forall_mem_append.mpr ⟨buffering.published, forall_mem_singleton.mpr ⟨empty,
      fun chunk inBuffer => (buffering.buffered chunk inBuffer).1, buffering.distinct⟩⟩

theorem seen_remember_self (chunk : PrehashedChunk) :
    (batcher.remember chunk).seen chunk.chunkId = some chunk.length :=
  Function.update_self ..

variable {chunk : PrehashedChunk}

theorem seen_remember_of_ne {chunkId : ChunkId} (other : chunkId ≠ chunk.chunkId) :
    (batcher.remember chunk).seen chunkId = batcher.seen chunkId :=
  Function.update_of_ne other ..

theorem Buffering.remember (buffering : Buffering chunks batcher) (offers : chunk ∈ chunks) :
    Buffering chunks (batcher.remember chunk) where
  seen := by
    intro chunkId length known
    by_cases same : chunkId = chunk.chunkId
    · subst same
      rw [seen_remember_self] at known
      exact ⟨chunk, offers, rfl, Option.some.inj known⟩
    · rw [seen_remember_of_ne same] at known
      exact buffering.seen chunkId length known
  buffered := by
    intro other mem
    refine ⟨(buffering.buffered other mem).1, ?_⟩
    by_cases same : other.chunkId = chunk.chunkId
    · rw [same, seen_remember_self]
      exact Option.some_ne_none _
    · rw [seen_remember_of_ne same]
      exact (buffering.buffered other mem).2
  distinct := buffering.distinct
  published := buffering.published

theorem Buffering.buffer (buffering : Buffering chunks batcher) (valid : chunk.Valid)
    (known : batcher.seen chunk.chunkId ≠ none)
    (fresh : ∀ other ∈ batcher.chunks, other.chunkId ≠ chunk.chunkId) :
    Buffering chunks (batcher.buffer chunk) where
  seen := buffering.seen
  buffered := by
    exact forall_mem_append.mpr ⟨buffering.buffered, forall_mem_singleton.mpr ⟨valid, known⟩⟩
  distinct := by
    rw [AdaptiveCommitWriter.buffer, map_append]
    refine nodup_append.mpr ⟨buffering.distinct, nodup_singleton _, ?_⟩
    intro chunkId mem other single
    obtain ⟨earlier, inBuffer, rfl⟩ := mem_map.mp mem
    rw [mem_singleton.mp single]
    exact fresh earlier inBuffer
  published := buffering.published

theorem push_collect (admissible : Admissible chunks) (buffering : Buffering chunks batcher)
    (offers : chunk ∈ chunks) (reusable : Bool) :
    ∃ next, batcher.push collect chunk reusable = .ok next ∧ Buffering chunks next := by
  unfold push
  cases known : batcher.seen chunk.chunkId with
  | some previous =>
    obtain ⟨other, inChunks, same, length⟩ := buffering.seen _ _ known
    have agrees := admissible.lengths other inChunks chunk offers same
    exact ⟨batcher, if_neg (not_not.mpr (length.symm.trans agrees)), buffering⟩
  | none =>
    have remembered := buffering.remember offers
    by_cases located : reusable
    · exact ⟨_, if_pos located, remembered⟩
    · suffices flushed : ∃ middle, (batcher.remember chunk).flushFor collect chunk.length =
          .ok middle ∧ Buffering chunks middle ∧ middle.seen = (batcher.remember chunk).seen ∧
            ∀ other ∈ middle.chunks, other ∈ batcher.chunks by
        obtain ⟨middle, ran, holds, seen, earlier⟩ := flushed
        have knows : middle.seen chunk.chunkId ≠ none := by
          rw [seen, seen_remember_self]
          exact Option.some_ne_none _
        have fresh : ∀ other ∈ middle.chunks, other.chunkId ≠ chunk.chunkId := by
          intro other mem same
          exact (buffering.buffered other (earlier other mem)).2 (same ▸ known)
        refine ⟨middle.buffer chunk, ?_, holds.buffer (admissible.valid chunk offers) knows fresh⟩
        exact (if_neg located).trans (bind_ok.mpr ⟨middle, ran, rfl⟩)
      unfold flushFor
      split
      · obtain ⟨middle, ran, holds, seen, empty⟩ := flush_collect remembered
        refine ⟨middle, ran, holds, seen, ?_⟩
        rw [empty]
        exact nofun
      · exact ⟨_, rfl, remembered, rfl, fun _ mem => mem⟩

theorem call_collect (admissible : Admissible chunks) (buffering : Buffering chunks batcher)
    (offers : ∀ chunk ∈ offered next, chunk ∈ chunks) :
    ∃ after, batcher.call collect next = .ok after ∧ Buffering chunks after := by
  cases next with
  | push chunk reusable =>
    exact push_collect admissible buffering (offers chunk mem_cons_self) reusable
  | beginInode placement advanced residue =>
    suffices changed : ∃ middle, batcher.changeMode collect placement advanced = .ok middle ∧
        Buffering chunks middle by
      obtain ⟨middle, ran, holds⟩ := changed
      have pushes (batcher : AdaptiveCommitWriter Batch) (staged : PrehashedChunk × Bool)
          (mem : staged ∈ residue) (holds : Buffering chunks batcher) :
          ∃ next, batcher.push collect staged.1 staged.2 = .ok next ∧ Buffering chunks next :=
        push_collect admissible holds (offers staged.1 (mem_map_of_mem mem)) staged.2
      obtain ⟨after, folded, result⟩ := foldlM_succeeds pushes holds
      exact ⟨after, bind_ok.mpr ⟨middle, ran, folded⟩, result⟩
    unfold changeMode
    split
    · obtain ⟨middle, ran, holds, _⟩ := flush_collect buffering
      exact ⟨_, bind_ok.mpr ⟨middle, ran, rfl⟩, { holds with }⟩
    · exact ⟨batcher, rfl, buffering⟩

theorem batches_of_admissible (admissible : Admissible (calls.flatMap offered)) :
    ∃ flushed, batches calls = .ok flushed ∧ ∀ batch ∈ flushed, batch.Valid := by
  have start : Buffering (calls.flatMap offered) (new : AdaptiveCommitWriter Batch) :=
    ⟨nofun, nofun, nodup_nil, nofun⟩
  have steps (batcher : AdaptiveCommitWriter Batch) (next : CommitCall) (mem : next ∈ calls)
      (holds : Buffering (calls.flatMap offered) batcher) :
      ∃ after, batcher.call collect next = .ok after ∧ Buffering (calls.flatMap offered) after :=
    call_collect admissible holds (fun _ offers => mem_flatMap.mpr ⟨next, mem, offers⟩)
  obtain ⟨called, folded, holds⟩ := foldlM_succeeds steps start
  obtain ⟨last, final, valid, _⟩ := flush_collect holds
  exact ⟨last.published, bind_ok.mpr ⟨called, folded, bind_ok.mpr ⟨last, final, rfl⟩⟩,
    valid.published⟩

end Buffers

section Encodable

variable {bound : ℕ → ℕ} {flushed : List Batch} {environment : CommitEnvironment}
  {encodings : List AdaptiveContainerEncoding}

section

variable (plannerSound : environment.planner.Sound) (within : environment.codec.Within bound)

include plannerSound within

theorem sealed_of_encoded (valid : ∀ batch ∈ flushed, batch.Valid)
    (encoded : List.Forall₂ (fun flushed encoding => encodeBatch environment flushed.2 flushed.1 =
      .ok encoding) flushed.zipIdx encodings) :
    List.Forall₂ (fun batch encoding => Sealed batch.chunkIds encoding) flushed encodings := by
  refine forall₂_iff_get.mpr ⟨by simpa using encoded.length_eq, ?_⟩
  intro ordinal inFlushed inEncodings
  have ofOrdinal := (forall₂_iff_get.mp encoded).2 ordinal (by simpa using inFlushed) inEncodings
  simp only [get_eq_getElem, getElem_zipIdx] at ofOrdinal
  rcases @encodeBatch_cases bound environment _ (0 + ordinal) plannerSound
      (valid flushed[ordinal] (getElem_mem inFlushed)) within with
    ⟨encoding, ran, isSealed⟩ | ⟨error, failed, _⟩
  · cases ofOrdinal.symm.trans ran
    exact isSealed
  · cases ofOrdinal.symm.trans failed

theorem commit_of_fits (collected : batches calls = .ok flushed)
    (valid : ∀ batch ∈ flushed, batch.Valid)
    (fits : ∀ batch ∈ flushed, batch.Fits bound environment.gate environment.planner) :
    ∃ encodings, commit (encodeBatch environment) calls = .ok encodings ∧
      List.Forall₂ (fun batch encoding => Sealed batch.chunkIds encoding) flushed encodings := by
  rcases commit_follows (encodeBatch environment) collected with
    ⟨encodings, ran, encoded⟩ | ⟨ordinal, batch, error, published, failed, _⟩
  · exact ⟨encodings, ran, sealed_of_encoded plannerSound within valid encoded⟩
  · have mem := mem_of_getElem? published
    obtain ⟨encoding, encoded, _⟩ :=
      @encodeBatch_of_fits bound environment batch ordinal plannerSound (valid batch mem) within
        (fits batch mem)
    cases failed.symm.trans encoded

end

theorem encoded_of_commit (collected : batches calls = .ok flushed)
    (ran : commit (encodeBatch environment) calls = .ok encodings) {ordinal : ℕ}
    {batch : Batch} (published : flushed[ordinal]? = some batch) :
    ∃ encoding, encodeBatch environment ordinal batch = .ok encoding := by
  rcases commit_follows (encodeBatch environment) collected with
    ⟨containers, _, encoded⟩ | ⟨_, _, _, _, _, failed⟩
  · obtain ⟨inside, same⟩ := List.getElem?_eq_some_iff.mp published
    have inZip : ordinal < flushed.zipIdx.length := by simpa using inside
    have ofOrdinal := (forall₂_iff_get.mp encoded).2 ordinal inZip (encoded.length_eq ▸ inZip)
    simp only [get_eq_getElem, getElem_zipIdx, same, zero_add] at ofOrdinal
    exact ⟨_, ofOrdinal⟩
  · cases ran.symm.trans failed

/-- The commit of a batch with too many Chunks fails with every compressor. -/
theorem commit_fails_of_many (plannerSound : environment.planner.Sound)
    (within : environment.codec.Within bound) (collected : batches calls = .ok flushed)
    (valid : ∀ batch ∈ flushed, batch.Valid) {batch : Batch} (mem : batch ∈ flushed)
    (many : MAX_CONTAINER_BYTES < batch.chunks.length *
      (CHUNK_TABLE_ENTRY_BYTES + INDEX_ENTRY_BYTES)) :
    ∃ error, commit (encodeBatch environment) calls = .error (.format error) := by
  rcases commit_follows (encodeBatch environment) collected with
    ⟨encodings, _, encoded⟩ | ⟨_, _, error, _, _, failed⟩
  · have encodedBatches := sealed_of_encoded plannerSound within valid encoded
    obtain ⟨ordinal, inside, rfl⟩ := mem_iff_getElem.mp mem
    have isSealed := (forall₂_iff_get.mp encodedBatches).2 ordinal inside
      (encodedBatches.length_eq ▸ inside)
    have few := isSealed.chunks_le
    rw [get_eq_getElem, Batch.chunkIds, length_map] at few
    exact absurd few (not_le.mpr many)
  · exact ⟨error, failed⟩

end Encodable

theorem pushes_buffer (chunks : List PrehashedChunk) (batcher : AdaptiveCommitWriter Batch)
    (fresh : ∀ chunk ∈ chunks, batcher.seen chunk.chunkId = none)
    (distinct : (chunks.map PrehashedChunk.chunkId).Nodup)
    (small : batcher.payloadBytes + (chunks.map PrehashedChunk.length).sum ≤
      CONTAINER_PAYLOAD_TARGET_BYTES) :
    ∃ next, (chunks.map fun chunk => CommitCall.push chunk false).foldlM
        (fun writer next => writer.call collect next) batcher = .ok next ∧
      next.batch = { batcher.batch with chunks := batcher.chunks ++ chunks } ∧
      next.published = batcher.published := by
  induction chunks generalizing batcher with
  | nil => exact ⟨batcher, rfl, by simp [batch], rfl⟩
  | cons chunk rest ih =>
    rw [map_cons, sum_cons] at small
    obtain ⟨other, distinctRest⟩ := nodup_cons.mp distinct
    have unseen := fresh chunk mem_cons_self
    have keeps : ¬ ((batcher.remember chunk).chunks ≠ [] ∧ CONTAINER_PAYLOAD_TARGET_BYTES <
        (batcher.remember chunk).payloadBytes + chunk.length) := by
      have sameBytes : (batcher.remember chunk).payloadBytes = batcher.payloadBytes := rfl
      omega
    have pushed : batcher.call collect (.push chunk false) =
        .ok ((batcher.remember chunk).buffer chunk) := by
      rw [call, push, unseen]
      exact bind_ok.mpr ⟨_, if_neg keeps, rfl⟩
    obtain ⟨next, folded, buffered, published⟩ := ih ((batcher.remember chunk).buffer chunk)
      (by
        intro later mem
        have ne : later.chunkId ≠ chunk.chunkId := by
          intro same
          exact other (same ▸ mem_map_of_mem mem)
        exact (seen_remember_of_ne ne).trans (fresh later (mem_cons_of_mem _ mem)))
      distinctRest
      (by
        have bytes : ((batcher.remember chunk).buffer chunk).payloadBytes =
          batcher.payloadBytes + chunk.length := rfl
        omega)
    refine ⟨next, ?_, ?_, published⟩
    · rw [map_cons, foldlM_cons, pushed, ok_bind, folded]
    · rw [buffered]
      simp [batch, buffer, remember]

theorem batches_of_pushes {chunks : List PrehashedChunk} (occupied : chunks ≠ [])
    (distinct : (chunks.map PrehashedChunk.chunkId).Nodup)
    (small : (chunks.map PrehashedChunk.length).sum ≤ CONTAINER_PAYLOAD_TARGET_BYTES) :
    batches (chunks.map fun chunk => .push chunk false) =
      .ok [{ chunks, advanced := (new : AdaptiveCommitWriter Batch).advanced }] := by
  obtain ⟨called, folded, buffered, published⟩ := pushes_buffer chunks new (fun _ _ => rfl) distinct
    (by rw [show (new : AdaptiveCommitWriter Batch).payloadBytes = 0 from rfl]; omega)
  have holds : called.chunks = chunks := congrArg Batch.chunks buffered
  have flushes : called.flush collect = .ok { called with
      chunks := [], payloadBytes := 0, published := called.published ++ [called.batch] } :=
    if_neg (holds ▸ occupied)
  refine bind_ok.mpr ⟨called, folded, bind_ok.mpr ⟨_, flushes, ?_⟩⟩
  rw [pure_ok, published, buffered]
  rfl

/-- The contents are four bytes that no other index has. -/
def tinyChunk (index : ℕ) : PrehashedChunk where
  chunkId := ⟨Bytes.leEncode 32 index, Bytes.length_leEncode ..⟩
  bytes := Bytes.leEncode 4 index

def tinyChunks (count : ℕ) : List PrehashedChunk :=
  (List.range count).map tinyChunk

theorem tinyChunks_distinct {count : ℕ} (few : count ≤ 2 ^ 32) :
    ((tinyChunks count).map PrehashedChunk.chunkId).Nodup := by
  rw [tinyChunks, map_map]
  refine List.Nodup.map_on ?_ nodup_range
  intro first firstIn second secondIn same
  have encoded : Bytes.leEncode 32 first = Bytes.leEncode 32 second := congrArg Subtype.val same
  have wide : count ≤ 256 ^ 32 := few.trans (by decide)
  rw [← leDecode_leEncode_of_lt ((mem_range.mp firstIn).trans_le wide), encoded,
    leDecode_leEncode_of_lt ((mem_range.mp secondIn).trans_le wide)]

theorem length_tinyChunk (index : ℕ) : (tinyChunk index).length = 4 :=
  length_leEncode ..

theorem admissible_tinyChunks (count : ℕ) : Admissible (tinyChunks count) where
  valid := by
    intro chunk mem
    obtain ⟨index, _, rfl⟩ := mem_map.mp mem
    rw [PrehashedChunk.Valid, length_tinyChunk]
    decide
  lengths := by
    intro chunk mem other otherMem _
    obtain ⟨index, _, rfl⟩ := mem_map.mp mem
    obtain ⟨otherIndex, _, rfl⟩ := mem_map.mp otherMem
    rw [length_tinyChunk, length_tinyChunk]

def tinyCalls (count : ℕ) : List CommitCall :=
  (tinyChunks count).map fun chunk => .push chunk false

theorem offered_tinyCalls (count : ℕ) : (tinyCalls count).flatMap offered = tinyChunks count := by
  rw [tinyCalls, flatMap_map]
  exact flatMap_singleton' _

theorem length_tinyChunks (count : ℕ) : (tinyChunks count).length = count := by
  rw [tinyChunks, length_map, length_range]

theorem tinyCalls_fail {count : ℕ} (small : count * 4 ≤ CONTAINER_PAYLOAD_TARGET_BYTES)
    (many : MAX_CONTAINER_BYTES < count * (CHUNK_TABLE_ENTRY_BYTES + INDEX_ENTRY_BYTES))
    {bound : ℕ → ℕ} {environment : CommitEnvironment} (plannerSound : environment.planner.Sound)
    (within : environment.codec.Within bound) :
    ∃ error, commit (encodeBatch environment) (tinyCalls count) = .error (.format error) := by
  have lengths : PrehashedChunk.length ∘ tinyChunk = fun _ => 4 := funext length_tinyChunk
  have bytes : ((tinyChunks count).map PrehashedChunk.length).sum = count * 4 := by
    rw [tinyChunks, map_map, lengths, map_const', sum_replicate, length_range]
    rfl
  have occupied : tinyChunks count ≠ [] := by
    intro empty
    have none := length_tinyChunks count
    rw [empty, length_nil] at none
    rw [← none, zero_mul] at many
    exact not_lt_zero _ many
  have few : count ≤ 2 ^ 32 := by
    unfold CONTAINER_PAYLOAD_TARGET_BYTES at small
    omega
  have distinct := tinyChunks_distinct few
  have collected := batches_of_pushes occupied distinct (bytes.le.trans small)
  refine commit_fails_of_many plannerSound within collected ?_ mem_cons_self ?_
  · intro batch mem
    rw [mem_singleton.mp mem]
    exact ⟨occupied, (admissible_tinyChunks count).valid, distinct⟩
  · exact many.trans_eq (by rw [length_tinyChunks])

/-- Every compressor gets a commit through if and only if each batch of it fits, and no compressor
makes the writer's assertion fail. -/
theorem commit_encodable_iff_batches_fit (bound : ℕ → ℕ) (environment : CommitEnvironment)
    (plannerSound : environment.planner.Sound) (calls : List CommitCall)
    (admissible : Admissible (calls.flatMap offered)) :
    ∃ flushed, batches calls = .ok flushed ∧ (∀ batch ∈ flushed, batch.Valid) ∧
      ((∀ codec : Codec, codec.Within bound →
          ∃ encodings, commit (encodeBatch (environment.withCodec codec)) calls = .ok encodings ∧
            List.Forall₂ (fun batch encoding => Sealed batch.chunkIds encoding) flushed encodings) ↔
        ∀ batch ∈ flushed, batch.Fits bound environment.gate environment.planner) ∧
      ∀ codec : Codec, codec.Within bound →
        commit (encodeBatch (environment.withCodec codec)) calls ≠ .error (.format .assertion) := by
  obtain ⟨flushed, collected, valid⟩ := batches_of_admissible admissible
  refine ⟨flushed, collected, valid, ⟨?_, ?_⟩, ?_⟩
  · intro committed batch member
    obtain ⟨ordinal, inside, same⟩ := mem_iff_getElem.mp member
    have published : flushed[ordinal]? = some batch := List.getElem?_eq_some_iff.mpr ⟨inside, same⟩
    obtain ⟨_, greedy, _⟩ := committed _ (Codec.greedy_within bound)
    obtain ⟨_, refusing, _⟩ := committed _ (Codec.refusing_within bound)
    exact fits_of_extremes plannerSound (valid batch member)
      (encoded_of_commit collected greedy published)
        (encoded_of_commit collected refusing published)
  · intro fits codec within
    exact @commit_of_fits calls bound flushed (environment.withCodec codec) plannerSound within
      collected valid fits
  · intro codec within asserted
    rcases commit_follows (encodeBatch (environment.withCodec codec)) collected with
      ⟨encodings, returned, _⟩ | ⟨ordinal, batch, error, published, failed, same⟩
    · cases asserted.symm.trans returned
    · cases same.symm.trans asserted
      have member := mem_of_getElem? published
      rcases @encodeBatch_cases bound (environment.withCodec codec) batch ordinal plannerSound
          (valid batch member) within with
        ⟨encoding, encoded, _⟩ | ⟨error, failedWith, unasserted⟩
      · cases failed.symm.trans encoded
      · cases failed.symm.trans failedWith
        exact unasserted rfl

def plainEnvironment : CommitEnvironment where
  codec := Codec.refusing
  gate := .off
  planner _ := none
  reserveGeneration _ := 1
  reserved _ := one_ne_zero

/-- Two tiny Chunks are encodable, whatever the codec makes of them. -/
theorem two_tiny_chunks_encodable :
    batches (tinyCalls 2) = .ok [{ chunks := tinyChunks 2, advanced := false }] ∧
      ∀ codec : Codec, codec.Within (· + 512) → ∃ encodings,
        commit (encodeBatch (plainEnvironment.withCodec codec)) (tinyCalls 2) = .ok encodings := by
  have collected : batches (tinyCalls 2) = .ok [{ chunks := tinyChunks 2, advanced := false }] :=
    rfl
  refine ⟨collected, ?_⟩
  obtain ⟨flushed, same, _, encodable, _⟩ := commit_encodable_iff_batches_fit (· + 512)
    plainEnvironment nofun (tinyCalls 2) (offered_tinyCalls 2 ▸ admissible_tinyChunks 2)
  obtain rfl := Except.ok.inj (same.symm.trans collected)
  have fits : ∀ batch ∈ [({ chunks := tinyChunks 2, advanced := false } : Batch)],
      batch.Fits (· + 512) plainEnvironment.gate plainEnvironment.planner := by
    intro batch member cut returned
    rw [mem_singleton.mp member] at returned ⊢
    obtain rfl : cut = { regions := [tinyChunks 2], independent := [], dependents := [],
                         regionBytes := 8 } := Except.ok.inj (returned.symm.trans rfl)
    refine ⟨?_, by decide⟩
    intro region inCut
    rw [mem_singleton.mp inCut]
    exact ⟨fun gated => absurd rfl gated.1, by decide⟩
  intro codec within
  obtain ⟨encodings, committed, _⟩ := encodable.mpr fits codec within
  exact ⟨encodings, committed⟩

/-- The commit of 400,000 Chunks of four bytes fails with every compressor and planner. -/
theorem tiny_chunks_not_encodable :
    Admissible ((tinyCalls 400000).flatMap offered) ∧
      ∀ (bound : ℕ → ℕ) (environment : CommitEnvironment), environment.planner.Sound →
        environment.codec.Within bound → ∃ error,
          commit (encodeBatch environment) (tinyCalls 400000) = .error (.format error) := by
  refine ⟨offered_tinyCalls 400000 ▸ admissible_tinyChunks 400000, ?_⟩
  intro bound environment plannerSound within
  exact tinyCalls_fail (by decide) (by decide) plannerSound within

end Fastdup.Appliance.AdaptiveCommitWriter
