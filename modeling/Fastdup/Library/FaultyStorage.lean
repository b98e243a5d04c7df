import Fastdup.Library.Bytes

/-!
# Programs over a storage that can stop at any call

A program reads and changes named objects through storage calls. A run may carry
one planned interruption: a number of calls completes, the next call is cut, and
the program sees an I/O error. A cut write leaves a prefix of its bytes, a cut
length change or creation happens completely or not at all, and a cut read or
synchronization changes nothing. A file that its creation leaves half-made is
not among these effects. A crash and an I/O failure have the same effect on the stored
objects, so both are runs with an interruption.

`Triple pre program post crash` is the corresponding program logic: started in
objects satisfying `pre`, a completed run satisfies `post` and every interrupted or
failed run leaves objects satisfying `crash`.
-/

namespace Fastdup.Library

open Function

/-- The error kinds that the readers tell apart. -/
inductive IoErrorKind where
  | notFound
  | alreadyExists
  | unexpectedEof
  | interrupted
  deriving DecidableEq, Repr

/-- The contents of the storage. -/
abbrev Objects (Name : Type) := Name → Option Bytes

/-- A planned interruption: `after` calls complete, the next one is cut and leaves
an effect of size `kept`. -/
structure Cut where
  after : ℕ
  kept : ℕ
  deriving DecidableEq, Repr

/-- The objects together with the interruption that is still ahead, if any. -/
structure World (Name : Type) where
  objects : Objects Name
  cut : Option Cut

/-- A storage program: it returns a value or an error, and the world it leaves. -/
def Program (Name ε α : Type) := World Name → Except ε α × World Name

namespace Program

variable {Name ε ε' α β : Type}

instance : Monad (Program Name ε) where
  pure value := fun world => (.ok value, world)
  bind program next := fun world =>
    match program world with
    | (.ok value, world') => next value world'
    | (.error error, world') => (.error error, world')

instance : MonadExceptOf ε (Program Name ε) where
  throw error := fun world => (.error error, world)
  tryCatch program handler := fun world =>
    match program world with
    | (.ok value, world') => (.ok value, world')
    | (.error error, world') => handler error world'

/-- A pure computation that may fail, as a program. -/
def settle (result : Except ε α) : Program Name ε α :=
  fun world => (result, world)

def mapError (translate : ε → ε') (program : Program Name ε α) : Program Name ε' α :=
  fun world => ((program world).1.mapError translate, (program world).2)

/-- One storage call. `effect` is what a completed call does and `torn` what a cut
call leaves. -/
def call (effect : Objects Name → Except IoErrorKind (α × Objects Name))
    (torn : ℕ → Objects Name → Objects Name) : Program Name IoErrorKind α :=
  fun world =>
    match world.cut with
    | some ⟨0, kept⟩ => (.error .interrupted, ⟨torn kept world.objects, none⟩)
    | some ⟨after + 1, kept⟩ => complete world.objects (some ⟨after, kept⟩)
    | none => complete world.objects none
where
  complete (objects : Objects Name) (cut : Option Cut) :
      Except IoErrorKind α × World Name :=
    match effect objects with
    | .ok (value, objects') => (.ok value, ⟨objects', cut⟩)
    | .error kind => (.error kind, ⟨objects, cut⟩)

/-- A call that leaves the objects as they are. -/
def readCall (effect : Objects Name → Except IoErrorKind α) : Program Name IoErrorKind α :=
  call (fun objects => (effect objects).map (·, objects)) (fun _ objects => objects)

/-- Replaces bytes from `offset` on, extending the content when needed. -/
def overwrite (content : Bytes) (offset : ℕ) (bytes : Bytes) : Bytes :=
  if bytes = [] then content
  else (content ++ List.replicate (offset - content.length) 0).take offset ++ bytes ++
    content.drop (offset + bytes.length)

/-- The content cut or zero-extended to an exact length. -/
def resize (content : Bytes) (length : ℕ) : Bytes :=
  content.take length ++ List.replicate (length - content.length) 0

theorem overwrite_end (content bytes : Bytes) :
    overwrite content content.length bytes = content ++ bytes := by
  unfold overwrite
  split
  · rename_i empty
    simp [empty]
  · simp

theorem overwrite_nil (bytes : Bytes) : overwrite [] 0 bytes = bytes :=
  overwrite_end [] bytes

theorem resize_zero (content : Bytes) : resize content 0 = [] := by
  simp [resize]

theorem resize_length (content : Bytes) : resize content content.length = content := by
  simp [resize]

section Calls

variable [DecidableEq Name]

def modify (name : Name) (change : Bytes → Bytes) (objects : Objects Name) : Objects Name :=
  Function.update objects name ((objects name).map change)

def requirePresent (name : Name) (objects : Objects Name) : Except IoErrorKind Bytes :=
  match objects name with
  | some content => .ok content
  | none => .error .notFound

/-- Creates an empty object; a cut leaves it created or not. -/
def createNew (name : Name) : Program Name IoErrorKind Unit :=
  call
    (fun objects =>
      match objects name with
      | some _ => .error .alreadyExists
      | none => .ok ((), Function.update objects name (some [])))
    (fun kept objects =>
      if kept = 0 ∨ (objects name).isSome then objects
      else Function.update objects name (some []))

def «exists» (name : Name) : Program Name IoErrorKind Bool :=
  readCall (fun objects => .ok (objects name).isSome)

def writeAt (name : Name) (offset : ℕ) (bytes : Bytes) : Program Name IoErrorKind Unit :=
  call
    (fun objects => (requirePresent name objects).map
      (fun _ => ((), modify name (overwrite · offset bytes) objects)))
    (fun kept objects => modify name (overwrite · offset (bytes.take kept)) objects)

def read (name : Name) : Program Name IoErrorKind Bytes :=
  readCall (requirePresent name)

def objectLen (name : Name) : Program Name IoErrorKind ℕ :=
  readCall (fun objects => (requirePresent name objects).map List.length)

/-- A short object is an error. -/
def readExactAt (name : Name) (offset length : ℕ) : Program Name IoErrorKind Bytes :=
  readCall (fun objects => do
    let content ← requirePresent name objects
    if offset + length ≤ content.length then
      pure (content.slice offset length)
    else
      .error .unexpectedEof)

def setLen (name : Name) (length : ℕ) : Program Name IoErrorKind Unit :=
  call
    (fun objects => (requirePresent name objects).map
      (fun _ => ((), modify name (resize · length) objects)))
    (fun kept objects => if kept = 0 then objects else modify name (resize · length) objects)

def syncFile (name : Name) : Program Name IoErrorKind Unit :=
  readCall (fun objects => (requirePresent name objects).map (fun _ => ()))

def syncRoot : Program Name IoErrorKind Unit :=
  readCall (fun _ => .ok ())

end Calls

/-- What a run returned and left: `post` of a value, `crash` of an error. -/
def Outcome (post : α → Objects Name → Prop) (crash : ε → Objects Name → Prop) :
    Except ε α × World Name → Prop
  | (.ok value, world) => post value world.objects
  | (.error error, world) => crash error world.objects

/-- A completed run satisfies `post`; an interrupted or failed one satisfies `crash`
with the error it reports. -/
def Triple (pre : Objects Name → Prop) (program : Program Name ε α)
    (post : α → Objects Name → Prop) (crash : ε → Objects Name → Prop) : Prop :=
  ∀ world, pre world.objects → Outcome post crash (program world)

/-- However the program ends, it leaves what held before. -/
abbrev Preserves (holds : Objects Name → Prop) (program : Program Name ε α) : Prop :=
  Triple holds program (fun _ => holds) (fun _ => holds)

variable {world world' : World Name} {error : ε} {result : Except ε α} {next : α → Program Name ε β}
  {translate : ε → ε'} {objects : Objects Name} {effect : Objects Name → Except IoErrorKind α}

namespace Triple

variable {pre pre' : Objects Name → Prop} {post post' : α → Objects Name → Prop}
  {crash crash' : ε → Objects Name → Prop} {program : Program Name ε α}

theorem consequence (triple : Triple pre' program post' crash')
    (strengthen : ∀ objects, pre objects → pre' objects)
    (weaken : ∀ value objects, post' value objects → post value objects)
    (weakenCrash : ∀ error objects, crash' error objects → crash error objects) :
    Triple pre program post crash := by
  intro world holds
  have outcome := triple world (strengthen _ holds)
  revert outcome
  rcases program world with ⟨error | value, world'⟩
  · exact weakenCrash error _
  · exact weaken value _

theorem weaken (triple : Triple pre program post' crash')
    (weaken : ∀ value objects, post' value objects → post value objects)
    (weakenCrash : ∀ error objects, crash' error objects → crash error objects) :
    Triple pre program post crash :=
  triple.consequence (fun _ => id) weaken weakenCrash

theorem weakenCrash (triple : Triple pre program post crash')
    (weaken : ∀ error objects, crash' error objects → crash error objects) :
    Triple pre program post crash :=
  triple.weaken (fun _ _ => id) weaken

theorem forall_start (each : ∀ objects, pre objects → Triple (· = objects) program post crash) :
    Triple pre program post crash :=
  fun world start => each world.objects start world rfl

theorem always {final : Objects Name → Prop}
    (triple : Triple pre program (fun _ => final) (fun _ => final)) (start : pre world.objects) :
    final (program world).2.objects := by
  have outcome := triple world start
  revert outcome
  rcases program world with ⟨error | value, world'⟩ <;> exact id

theorem pure {value : α} (holds : ∀ objects, pre objects → post value objects) :
    Triple pre (Pure.pure value : Program Name ε α) post crash :=
  fun world start => holds world.objects start

theorem throw (holds : ∀ objects, pre objects → crash error objects) :
    Triple pre (MonadExcept.throw error : Program Name ε α) post crash :=
  fun world start => holds world.objects start

theorem settle (holds : ∀ objects, pre objects → ∀ value, result = .ok value → post value objects)
    (fails : ∀ objects, pre objects → ∀ error, result = .error error → crash error objects) :
    Triple pre (Program.settle result : Program Name ε α) post crash := by
  intro world start
  cases result with
  | ok value => exact holds _ start _ rfl
  | error error => exact fails _ start _ rfl

theorem bind {middle : α → Objects Name → Prop} {final : β → Objects Name → Prop}
    (first : Triple pre program middle crash)
    (rest : ∀ value, Triple (middle value) (next value) final crash) :
    Triple pre (program >>= next) final crash := by
  intro world start
  have outcome := first world start
  simp only [Bind.bind]
  revert outcome
  rcases program world with ⟨error | value, world'⟩
  · exact id
  · exact rest value world'

theorem mapError {crash : ε' → Objects Name → Prop}
    (triple : Triple pre program post (fun error => crash (translate error))) :
    Triple pre (program.mapError translate) post crash := by
  intro world start
  have outcome := triple world start
  simp only [Program.mapError]
  revert outcome
  rcases program world with ⟨error | value, world'⟩ <;> exact id

theorem tryCatch {handler : ε → Program Name ε α} {failed : ε → Objects Name → Prop}
    (body : Triple pre program post failed)
    (handle : ∀ error, Triple (failed error) (handler error) post crash) :
    Triple pre (MonadExceptOf.tryCatch program handler) post crash := by
  intro world start
  have outcome := body world start
  simp only [MonadExceptOf.tryCatch]
  revert outcome
  rcases program world with ⟨error | value, world'⟩
  · exact handle error world'
  · exact id

theorem call {effect : Objects Name → Except IoErrorKind (α × Objects Name)}
    {torn : ℕ → Objects Name → Objects Name} {crash : IoErrorKind → Objects Name → Prop}
    (completes : ∀ objects, pre objects → ∀ value objects',
      effect objects = .ok (value, objects') → post value objects')
    (fails : ∀ objects, pre objects → ∀ kind, effect objects = .error kind → crash kind objects)
    (cut : ∀ objects, pre objects → ∀ kept, crash .interrupted (torn kept objects)) :
    Triple pre (Program.call effect torn) post crash := by
  intro world start
  have settled : ∀ ahead,
      Outcome post crash (Program.call.complete effect world.objects ahead) := by
    intro ahead
    unfold Program.call.complete
    rcases outcome : effect world.objects with kind | ⟨value, objects'⟩
    · exact fails _ start _ outcome
    · exact completes _ start _ _ outcome
  unfold Program.call
  rcases world.cut with _ | ⟨_ | after, kept⟩
  · exact settled none
  · exact cut _ start kept
  · exact settled (some ⟨after, kept⟩)

theorem readCall : Triple (· = objects) (Program.readCall effect)
      (fun value objects' => objects' = objects ∧ effect objects = .ok value)
      (fun error objects' => objects' = objects ∧
        (error = .interrupted ∨ effect objects = .error error)) := by
  apply call
  · rintro _ rfl value objects' completed
    cases outcome : effect _ with
    | error kind => simp [outcome, Except.map] at completed
    | ok value' =>
      simp only [outcome, Except.map, Except.ok.injEq, Prod.mk.injEq] at completed
      exact ⟨completed.2.symm, by rw [completed.1]⟩
  · rintro _ rfl kind failed
    cases outcome : effect _ with
    | error kind' =>
      simp only [outcome, Except.map, Except.error.injEq] at failed
      exact ⟨rfl, Or.inr (by rw [failed])⟩
    | ok value => simp [outcome, Except.map] at failed
  · rintro _ rfl kept
    exact ⟨rfl, Or.inl rfl⟩

end Triple

section CallTriples

variable [DecidableEq Name] {name : Name} {content : Bytes}

section

variable (present : objects name = some content)

include present

theorem modify_eq (change : Bytes → Bytes) :
    modify name change objects = update objects name (some (change content)) := by
  simp [modify, present]

theorem writeAt_triple (offset : ℕ) (bytes : Bytes) :
    Triple (· = objects) (writeAt name offset bytes) (fun _ objects' =>
        objects' = update objects name (some (overwrite content offset bytes)))
      (fun _ objects' => ∃ kept, objects' =
        update objects name (some (overwrite content offset (bytes.take kept)))) := by
  apply Triple.call
  · rintro _ rfl _ objects' completed
    simp only [requirePresent, present, Except.map, Except.ok.injEq, Prod.mk.injEq] at completed
    rw [← completed.2, modify_eq present]
  · rintro _ rfl kind failed
    simp [requirePresent, present, Except.map] at failed
  · rintro _ rfl kept
    exact ⟨kept, modify_eq present _⟩

theorem setLen_triple (length : ℕ) : Triple (· = objects) (setLen name length) (fun _ objects' =>
        objects' = update objects name (some (resize content length)))
      (fun _ objects' => objects' = objects ∨
        objects' = update objects name (some (resize content length))) := by
  apply Triple.call
  · rintro _ rfl _ objects' completed
    simp only [requirePresent, present, Except.map, Except.ok.injEq, Prod.mk.injEq] at completed
    rw [← completed.2, modify_eq present]
  · rintro _ rfl kind failed
    exact Or.inl rfl
  · rintro _ rfl kept
    by_cases untouched : kept = 0
    · exact Or.inl (by simp [untouched])
    · exact Or.inr (by simp [untouched, modify_eq present])

end

theorem createNew_triple : Triple (· = objects) (createNew name)
      (fun _ objects' => objects name = none ∧ objects' = update objects name (some []))
      (fun _ objects' => objects' = objects ∨
        (objects name = none ∧ objects' = update objects name (some []))) := by
  apply Triple.call
  · rintro _ rfl _ objects' completed
    split at completed
    · cases completed
    · rename_i missing
      simp only [Except.ok.injEq, Prod.mk.injEq, true_and] at completed
      exact ⟨missing, completed.symm⟩
  · rintro _ rfl kind _
    exact Or.inl rfl
  · rintro objects' rfl kept
    by_cases untouched : kept = 0 ∨ (objects' name).isSome
    · exact Or.inl (by simp [untouched])
    · right
      refine ⟨?_, by simp [untouched]⟩
      simpa using (not_or.mp untouched).2

end CallTriples

section Uncut

@[simp]
theorem pure_apply (value : α) (world : World Name) :
    (pure value : Program Name ε α) world = (.ok value, world) :=
  rfl

@[simp]
theorem throw_apply (error : ε) (world : World Name) :
    (throw error : Program Name ε α) world = (.error error, world) :=
  rfl

@[simp]
theorem settle_apply (result : Except ε α) (world : World Name) :
    (settle result : Program Name ε α) world = (result, world) :=
  rfl

theorem bind_apply (program : Program Name ε α) (next : α → Program Name ε β) (world : World Name) :
    (program >>= next) world = match program world with
      | (.ok value, world') => next value world'
      | (.error error, world') => (.error error, world') :=
  rfl

theorem mapError_apply (translate : ε → ε') (program : Program Name ε α) (world : World Name) :
    program.mapError translate world = ((program world).1.mapError translate, (program world).2) :=
  rfl

theorem tryCatch_apply (program : Program Name ε α) (handler : ε → Program Name ε α)
    (world : World Name) : (tryCatch program handler) world = match program world with
      | (.ok value, world') => (.ok value, world')
      | (.error error, world') => handler error world' :=
  rfl

@[simp]
theorem readCall_uncut (effect : Objects Name → Except IoErrorKind α) :
    readCall effect ⟨objects, none⟩ = (effect objects, ⟨objects, none⟩) := by
  simp only [readCall, call, call.complete]
  cases effect objects <;> rfl

end Uncut

section Cuts

variable [DecidableEq Name] {name : Name} {content : Bytes}

theorem writeAt_cut (present : objects name = some content) (offset kept : ℕ) (bytes : Bytes) :
    writeAt name offset bytes ⟨objects, some ⟨0, kept⟩⟩ = (.error .interrupted,
      ⟨update objects name (some (overwrite content offset (bytes.take kept))), none⟩) := by
  simp [writeAt, call, modify_eq present]

theorem writeAt_ahead (present : objects name = some content) (offset after kept : ℕ)
    (bytes : Bytes) : writeAt name offset bytes ⟨objects, some ⟨after + 1, kept⟩⟩ = (.ok (),
      ⟨update objects name (some (overwrite content offset bytes)), some ⟨after, kept⟩⟩) := by
  simp [writeAt, call, call.complete, requirePresent, present, Except.map, modify_eq present]

theorem setLen_cut (length : ℕ) :
    setLen name length ⟨objects, some ⟨0, 0⟩⟩ = (.error .interrupted, ⟨objects, none⟩) := by
  simp [setLen, call]

end Cuts

/-- The program computes `result` from the stored objects and changes none of them;
an interruption shows as an error. -/
structure Reads (program : Program Name ε α) (result : Objects Name → Except ε α) : Prop where
  uncut : ∀ objects, program ⟨objects, none⟩ = (result objects, ⟨objects, none⟩)
  triple : ∀ objects, Triple (· = objects) program
    (fun value objects' => objects' = objects ∧ result objects = .ok value)
    (fun _ objects' => objects' = objects)

namespace Reads

variable {program : Program Name ε α} {result : Objects Name → Except ε α}

theorem readCall (effect : Objects Name → Except IoErrorKind α) :
    Reads (Program.readCall effect) effect where
  uncut _ := readCall_uncut effect
  triple _ := Triple.readCall.weakenCrash
    (fun _ _ outcome => outcome.1)

theorem pure (value : α) : Reads (Pure.pure value : Program Name ε α) (fun _ => .ok value) where
  uncut _ := rfl
  triple _ := Triple.pure (fun _ same => ⟨same, rfl⟩)

theorem throw (error : ε) :
    Reads (MonadExcept.throw error : Program Name ε α) (fun _ => .error error) where
  uncut _ := rfl
  triple _ := Triple.throw (fun _ same => same)

theorem settle (value : Except ε α) : Reads (Program.settle value : Program Name ε α)
    (fun _ => value) where
  uncut _ := rfl
  triple _ := Triple.settle (fun _ same _ completed => ⟨same, completed⟩) (fun _ same _ _ => same)

theorem mapError (reads : Reads program result) (translate : ε → ε') :
    Reads (program.mapError translate) (fun objects => (result objects).mapError translate) where
  uncut objects := by rw [mapError_apply, reads.uncut]
  triple objects := by
    apply Triple.mapError
    refine (reads.triple objects).weaken ?_ (fun _ _ => id)
    rintro value objects' ⟨same, completed⟩
    exact ⟨same, by rw [completed]; rfl⟩

theorem bind {nextResult : α → Objects Name → Except ε β} (reads : Reads program result)
    (nextReads : ∀ value, Reads (next value) (nextResult value)) : Reads (program >>= next)
      (fun objects => result objects >>= fun value => nextResult value objects) where
  uncut objects := by
    rw [bind_apply, reads.uncut]
    cases result objects with
    | error error => rfl
    | ok value => exact (nextReads value).uncut objects
  triple objects := by
    apply Triple.bind (reads.triple objects)
    intro value
    rintro ⟨objects', cut⟩ ⟨same, completed⟩
    subst same
    have outcome := (nextReads value).triple _ ⟨objects', cut⟩ rfl
    simp only [completed]
    exact outcome

end Reads

/-- Without an interruption the program returns `value` and leaves `objects'`. -/
def Completes (program : Program Name ε α) (objects : Objects Name) (value : α)
    (objects' : Objects Name) : Prop :=
  program ⟨objects, none⟩ = (.ok value, ⟨objects', none⟩)

namespace Completes

variable {program : Program Name ε α} {objects' objects'' : Objects Name} {value : α}

theorem pure (value : α) (objects : Objects Name) :
    Completes (Pure.pure value : Program Name ε α) objects value objects :=
  rfl

theorem settle (ran : result = .ok value) (objects : Objects Name) :
    Completes (Program.settle result) objects value objects := by
  rw [Completes, settle_apply, ran]

theorem bind {final : β} (first : Completes program objects value objects')
    (rest : Completes (next value) objects' final objects'') :
    Completes (program >>= next) objects final objects'' := by
  rw [Completes, bind_apply, first]
  exact rest

theorem mapError (translate : ε → ε') (completes : Completes program objects value objects') :
    Completes (program.mapError translate) objects value objects' := by
  rw [Completes, mapError_apply, completes]
  rfl

theorem of_reads {result : Objects Name → Except ε α} (reads : Reads program result)
    (ran : result objects = .ok value) : Completes program objects value objects := by
  rw [Completes, reads.uncut, ran]

theorem readCall (ran : effect objects = .ok value) :
    Completes (Program.readCall effect) objects value objects :=
  of_reads (Reads.readCall effect) ran

theorem post {pre : Objects Name → Prop} {post : α → Objects Name → Prop}
    {crash : ε → Objects Name → Prop} (completes : Completes program objects value objects')
    (triple : Triple pre program post crash) (start : pre objects) : post value objects' := by
  have outcome := triple ⟨objects, none⟩ start
  rw [completes] at outcome
  exact outcome

variable {name : Name} {content : Bytes}

theorem syncFile (present : objects name = some content) :
    Completes (Program.syncFile name) objects () objects := by
  apply readCall
  simp [requirePresent, present, Except.map]

theorem readExactAt (present : objects name = some content) {offset length : ℕ}
    (bounded : offset + length ≤ content.length) :
    Completes (Program.readExactAt name offset length) objects (content.slice offset length)
      objects := by
  apply readCall
  simp [requirePresent, present, bounded, Bind.bind, Except.bind, Pure.pure, Except.pure]

variable [DecidableEq Name]

theorem writeAt (present : objects name = some content) (offset : ℕ) (bytes : Bytes) :
    Completes (Program.writeAt name offset bytes) objects ()
      (update objects name (some (overwrite content offset bytes))) := by
  simp [Completes, Program.writeAt, call, call.complete, requirePresent, present, Except.map,
    modify_eq present]

theorem setLen (present : objects name = some content) (length : ℕ) :
    Completes (Program.setLen name length) objects ()
      (update objects name (some (resize content length))) := by
  simp [Completes, Program.setLen, call, call.complete, requirePresent, present, Except.map,
    modify_eq present]

theorem createNew (absent : objects name = none) :
    Completes (Program.createNew name) objects () (update objects name (some [])) := by
  simp [Completes, Program.createNew, call, call.complete, absent]

end Completes

variable {program : Program Name ε α}

end Program

end Fastdup.Library
