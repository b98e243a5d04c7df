import Fastdup.Posix.Namespace.Admission
import Fastdup.Posix.Namespace.Requests

/-!
# Enumerating a directory

A reply shows a part of the children in the order of their names, and its last entry says where the
next reply continues. That position counts the children that the directory has then. An entry is
listed exactly once as long as no request in between changes a name that has been passed; a name
that goes before the position moves the entries behind it, and one of them is not shown.
-/

namespace Fastdup.Posix.Catalog

open Library Checked List Option SortedMap Nat UInt8 Catalog

/-- The entries of a directory, in name order. -/
def children (catalog : Catalog) (id : ℕ) : List (EntryKey × ℕ) :=
  catalog.entries.pairs.filter fun entry => entry.1.parent = id

/-- The enumeration reads on, or a request is served in between. -/
inductive Turn where
  | reply (acquireLookups : Bool)
  | change (request : Request)

/-- A listing in progress: where it stands and what it has returned. -/
structure Enumeration where
  catalog : Catalog
  offset : ℕ
  returned : List ListedEntry

namespace Enumeration

variable (config : NamespaceConfig) (id : ℕ)

def start (catalog : Catalog) : Enumeration where
  catalog := catalog
  offset := 0
  returned := []

/-- A reply moves the enumeration to the offset of its last entry. -/
def turn (enumeration : Enumeration) : Turn → Option Enumeration
  | .reply acquireLookups =>
    match enumeration.catalog.readDirectory id enumeration.offset acquireLookups with
    | .ok (after, entries) => some
        { catalog := after
          offset := (entries.getLast?.map ListedEntry.nextOffset).getD enumeration.offset
          returned := enumeration.returned ++ entries }
    | .error _ => none
  | .change request =>
    (enumeration.catalog.serve config request).map fun after =>
      { enumeration with catalog := after }

/-- A listing between the requests of others. -/
def run (enumeration : Enumeration) (turns : List Turn) : Option Enumeration :=
  turns.foldlM (turn config id) enumeration

/-- A request leaves the names that have been passed, and those before them, as they are. -/
def Ahead (enumeration : Enumeration) : Turn → Prop
  | .reply _ => True
  | .change request => ∀ after ∈ enumeration.catalog.serve config request,
      ∀ entry ∈ (enumeration.catalog.children id).take (enumeration.offset - 2),
        ∀ key, key.parent = id → ¬ entry.1 < key →
          after.entries.get? key = enumeration.catalog.entries.get? key

/-- Changes of others during the listing touch only names that it has yet to reach. -/
def AheadRun (enumeration : Enumeration) : List Turn → Prop
  | [] => True
  | next :: rest => enumeration.Ahead config id next ∧
      ∀ after ∈ enumeration.turn config id next, AheadRun after rest

/-- An entry is there in every state of an enumeration of its directory. -/
def Throughout (key : EntryKey) (child : ℕ) (enumeration : Enumeration) : List Turn → Prop
  | [] => enumeration.catalog.entries.get? key = some child
  | next :: rest => enumeration.catalog.entries.get? key = some child ∧
      ∀ after ∈ enumeration.turn config key.parent next, Throughout key child after rest

end Enumeration

variable {ambient : Ambient} {key : EntryKey} {acquireLookups : Bool} {turns : List Turn}

section Names

variable {config : NamespaceConfig} {catalog after : Catalog} {id : ℕ}

@[simp]
theorem entries_dropOrphan : (catalog.dropOrphan id).entries = catalog.entries := by
  unfold dropOrphan
  split <;> rfl

@[simp]
theorem entries_dropDirectory : (catalog.dropDirectory id).entries = catalog.entries := by
  unfold dropDirectory
  split <;> rfl

theorem entries_mutate {change : Inode → Inode} {sequences : ℕ × ℕ} :
    (catalog.mutate id change sequences).entries = catalog.entries := by
  unfold mutate
  split
  · exact entries_update _ _ _
  · exact (entries_update _ _ _).trans (entries_update _ _ _)

theorem entries_truncated {sequence : Option ℕ} :
    (truncated ambient catalog id sequence).entries = catalog.entries := by
  cases sequence with
  | none => rfl
  | some sequence => exact entries_update _ _ _

variable {replaced : Option ℕ}

theorem entries_finishReplacedFile :
    (catalog.finishReplacedFile replaced).entries = catalog.entries := by
  cases replaced with
  | none => rfl
  | some target => exact entries_dropOrphan

theorem entries_finishReplacedDirectory {sequence : ℕ} :
    (catalog.finishReplacedDirectory replaced sequence).entries = catalog.entries := by
  cases replaced with
  | none => rfl
  | some target => exact entries_dropDirectory.trans entries_removeDirectory

/-- A request leaves the names, or removes one and then adds one that has been checked, or does one
of the two. -/
theorem Transition.entries {context : RequestContext} {operation : Operation}
    (transition : Transition config ambient context catalog operation after) :
    ∃ kept, (kept = catalog.entries ∨ ∃ old, kept = catalog.entries.remove old) ∧
      (after.entries = kept ∨ ∃ new id, validateComponent config new.name = .ok () ∧
        after.entries = kept.insert new id) := by
  cases transition with
  | same | looked => exact ⟨_, .inl rfl, .inl rfl⟩
  | forgot | released => exact ⟨_, .inl rfl, .inl entries_dropOrphan⟩
  | opened | openedExisting => exact ⟨_, .inl rfl, .inl entries_truncated⟩
  | created free _ _ _ allocation | madeSymlink free _ _ allocation =>
    rcases allocateInode_eq_ok allocation with ⟨_, _, _, rfl⟩
    exact ⟨_, .inl rfl, .inr ⟨_, _, free.valid, entries_update _ _ _⟩⟩
  | madeDirectory free _ _ _ _ _ allocation =>
    rcases allocateInode_eq_ok allocation with ⟨_, _, _, rfl⟩
    exact ⟨_, .inl rfl, .inr ⟨_, _, free.valid,
      (entries_update _ _ _).trans entries_adjustParent⟩⟩
  | @linked key id _ _ _ _ free =>
    refine ⟨_, .inl rfl, .inr ⟨key, id, free.valid, (entries_update _ _ _).trans ?_⟩⟩
    rw [insertEntry, entries_setLinks]
  | @unlinked key =>
    refine ⟨_, .inr ⟨key, rfl⟩, .inl (entries_dropOrphan.trans ((entries_update _ _ _).trans ?_))⟩
    rw [removeEntry, entries_setLinks]
  | @removedDirectory key =>
    refine ⟨_, .inr ⟨key, rfl⟩,
      .inl (entries_dropDirectory.trans ((entries_update _ _ _).trans ?_))⟩
    rw [removeEntry, entries_adjustParent, entries_removeDirectory]
  | @movedFile oldKey newKey source _ _ _ moves _ _ replace =>
    refine ⟨_, .inr ⟨oldKey, rfl⟩, .inr ⟨newKey, source, moves.valid,
      entries_finishReplacedFile.trans ((entries_update _ _ _).trans ?_)⟩⟩
    rw [insertEntry, removeEntry, entries_update, entries_replaceFile replace]
  | @movedDirectory oldKey newKey source _ _ _ _ _ _ moves =>
    exact ⟨_, .inr ⟨oldKey, rfl⟩, .inr ⟨newKey, source, moves.valid,
      entries_finishReplacedDirectory.trans entries_withParents⟩⟩
  | attributed | handedOver | flagged | accessed => exact ⟨_, .inl rfl, .inl entries_mutate⟩
  | flaggedOnly | written => exact ⟨_, .inl rfl, .inl (entries_update _ _ _)⟩

theorem Reached.validateComponent (reached : Reached config catalog)
    (named : catalog.entries.get? key ≠ none) :
    Catalog.validateComponent config key.name = .ok () := by
  induction reached with
  | mounted mounted =>
    cases mounted with
    | volatile now => exact absurd rfl named
    | committed mounted =>
      rcases fromCommitted_eq_ok mounted with ⟨base, _, accepted, rfl, _⟩
      rw [withRootLinks, entries_update] at named
      rcases ne_none_iff_exists'.mp named with ⟨child, entry⟩
      exact accepted.naming.names key child entry
  | served _ served ih =>
    rcases transition_of_serve served with rfl | transition
    · exact ih named
    · rcases transition.entries with ⟨kept, fewer, more⟩
      have old : kept.get? key ≠ none → Catalog.validateComponent config key.name = .ok () := by
        intro found
        rcases fewer with rfl | ⟨_, rfl⟩
        · exact ih found
        · rw [get?_remove] at found
          split at found
          · exact absurd rfl found
          · exact ih found
      rcases more with same | ⟨new, _, valid, same⟩
      · exact old (same ▸ named)
      · rw [same, get?_insert] at named
        split at named
        · rename_i isNew
          exact isNew ▸ valid
        · exact old named
  | begun _ begun ih =>
    cases runs_beginCommit.of_ok begun with
    | inflight => exact ih named
    | clean => exact ih named
    | cut => exact ih named
  | completed _ completed ih =>
    rcases completeCommit_eq_ok completed with ⟨_, rfl⟩
    exact ih named

end Names

section Replies

variable {catalog after : Catalog} {id start count : ℕ} {entries : List ListedEntry}

theorem getElem?_listedChildren {index : ℕ} : (catalog.listedChildren id)[index]? =
    ((catalog.children id)[index]?).map fun entry => ⟨entry.2, entry.1.name, index + 3⟩ := by
  rw [listedChildren, getElem?_map, getElem?_zipIdx, Option.map_map]
  simp [children, Function.comp_def]

theorem length_listedChildren :
    (catalog.listedChildren id).length = (catalog.children id).length := by
  rw [listedChildren, length_map, length_zipIdx, children]

theorem names_listedChildren : (catalog.listedChildren id).map ListedEntry.name =
    (catalog.children id).map fun entry => entry.1.name := by
  apply ext_getElem?
  intro index
  rw [getElem?_map, getElem?_listedChildren, getElem?_map, Option.map_map]
  rfl

theorem take_listedChildren
    (same : (after.children id).take count = (catalog.children id).take count) :
    (after.listedChildren id).take count = (catalog.listedChildren id).take count := by
  apply ext_getElem?
  intro index
  have here := congrArg (fun entries => entries[index]?) same
  simp only [getElem?_take] at here ⊢
  split
  · rename_i below
    rw [if_pos below, if_pos below] at here
    rw [getElem?_listedChildren, getElem?_listedChildren, here]
  · rfl

/-- Where a reply continues that shows some of the children from a position on. -/
theorem nextOffset_shown (inside : start ≤ (catalog.children id).length) :
    ((((catalog.listedChildren id).drop start).take count).getLast?.map
      ListedEntry.nextOffset).getD (start + 2) =
        start + min count ((catalog.children id).length - start) + 2 := by
  rw [getLast?_eq_getElem?, length_take, length_drop, length_listedChildren]
  by_cases nothing : min count ((catalog.children id).length - start) = 0
  · rw [nothing]
    have empty : ((catalog.listedChildren id).drop start).take count = [] := by
      rw [← length_eq_zero_iff, length_take, length_drop, length_listedChildren, nothing]
    rw [empty]
    rfl
  · have below : start + (min count ((catalog.children id).length - start) - 1) <
        (catalog.children id).length := by omega
    rw [getElem?_take, if_pos (by omega), getElem?_drop, getElem?_listedChildren,
      getElem?_eq_getElem below, map_some, map_some, getD_some]
    dsimp only
    omega

/-- The first two entries of every directory. -/
def dots (id parent : ℕ) : List ListedEntry :=
  [{ inode := id, name := [0x2e], nextOffset := 1 },
    { inode := parent, name := [0x2e, 0x2e], nextOffset := 2 }]

theorem listed_zero_eq_ok (listed : catalog.listed id 0 = .ok entries) :
    ∃ parent, entries = dots id parent ++ (catalog.listedChildren id).take 254 := by
  simp only [Catalog.listed, listedParent, listedSelf, if_pos (zero_le 1), bind_ok,
    pure_ok] at listed
  rcases listed with ⟨_, ⟨parent, _, _, _, rfl⟩, _, _, rfl⟩
  exact ⟨parent, rfl⟩

theorem listed_eq_ok (behind : 2 ≤ start) (listed : catalog.listed id start = .ok entries) :
    entries = ((catalog.listedChildren id).drop (start - 2)).take 256 := by
  have notFirst : ¬ start ≤ 1 := by omega
  have notZero : start ≠ 0 := by omega
  simp only [Catalog.listed, listedParent, listedSelf, if_neg notFirst, if_neg notZero,
    bind_ok, pure_ok, nil_append] at listed
  rcases listed with ⟨_, isEmpty, _, _, rfl⟩
  cases isEmpty
  rfl

theorem entries_foldl_acquireLookup : (entries.foldl (fun catalog entry =>
    catalog.acquireLookup entry.inode 1) catalog).entries = catalog.entries := by
  induction entries generalizing catalog with
  | nil => rfl
  | cons entry rest ih => exact ih

theorem readDirectory_eq_ok
    (read : catalog.readDirectory id start acquireLookups = .ok (after, entries)) :
    after.entries = catalog.entries ∧ catalog.listed id start = .ok entries := by
  simp only [readDirectory, bind_ok] at read
  rcases read with ⟨_, _, _, _, shown, listed, read⟩
  split at read
  · cases read
    exact ⟨entries_foldl_acquireLookup, listed⟩
  · cases read
    exact ⟨rfl, listed⟩

end Replies

namespace Enumeration

variable {config : NamespaceConfig} {id : ℕ} {enumeration after last : Enumeration}

/-- What has been returned is the beginning of the listing, up to the offset. -/
def Lists (id : ℕ) (enumeration : Enumeration) : Prop :=
  enumeration.offset = 0 ∧ enumeration.returned = [] ∨
    ∃ count parent, enumeration.offset = count + 2 ∧
      count ≤ (enumeration.catalog.children id).length ∧
      enumeration.returned =
        dots id parent ++ (enumeration.catalog.listedChildren id).take count

theorem Lists.reply (lists : Lists id enumeration)
    (turned : enumeration.turn config id (.reply acquireLookups) = some after) :
    Lists id after := by
  rw [turn] at turned
  split at turned
  · rename_i catalog entries read
    cases turned
    rcases readDirectory_eq_ok read with ⟨same, listed⟩
    have children : catalog.children id = enumeration.catalog.children id := by
      rw [children, same, children]
    have listing : catalog.listedChildren id = enumeration.catalog.listedChildren id := by
      rw [listedChildren, same, listedChildren]
    have shown_eq : ∀ start count, (enumeration.catalog.listedChildren id).take
        (start + min count ((enumeration.catalog.children id).length - start)) =
          (enumeration.catalog.listedChildren id).take start ++
            ((enumeration.catalog.listedChildren id).drop start).take count := by
      intro start count
      rw [take_add, ← length_listedChildren, ← length_drop, ← take_eq_take_min]
    rcases lists with ⟨fresh, nothing⟩ | ⟨count, parent, reached, inside, ran⟩
    · rw [fresh] at listed
      rcases listed_zero_eq_ok listed with ⟨parent, rfl⟩
      have next := @nextOffset_shown enumeration.catalog id 0 254 (zero_le _)
      refine .inr ⟨0 + min 254 ((enumeration.catalog.children id).length - 0), parent, ?_, ?_, ?_⟩
      · rw [← next, getLast?_append, drop_zero]
        cases ((enumeration.catalog.listedChildren id).take 254).getLast? <;> rfl
      · rw [children]
        omega
      · rw [nothing, listing, shown_eq]
        rfl
    · rw [reached] at listed
      have shown := listed_eq_ok (le_add_left 2 count) listed
      rw [Nat.add_sub_cancel] at shown
      refine .inr ⟨count + min 256 ((enumeration.catalog.children id).length - count), parent, ?_,
        ?_, ?_⟩
      · rw [← nextOffset_shown inside, shown, reached]
      · rw [children]
        omega
      · rw [ran, listing, shown_eq, shown, append_assoc]
  · cases turned

theorem Lists.change {request : Request} (lists : Lists id enumeration)
    (ahead : enumeration.Ahead config id (.change request))
    (turned : enumeration.turn config id (.change request) = some after) : Lists id after := by
  rw [turn, map_eq_some_iff] at turned
  rcases turned with ⟨catalog, served, rfl⟩
  rcases lists with fresh | ⟨count, parent, reached, inside, ran⟩
  · exact .inl fresh
  · have unmoved := ahead catalog served
    rw [reached, Nat.add_sub_cancel] at unmoved
    have same : (catalog.children id).take count =
        (enumeration.catalog.children id).take count := by
      refine take_eq_of_agree (enumeration.catalog.entries.sorted.filter _)
        (catalog.entries.sorted.filter _) ?_ inside
      rintro ⟨key, child⟩ ⟨passed, mem, notAfter⟩
      rw [children, children, mem_filter, mem_filter, mem_pairs_iff, mem_pairs_iff]
      refine and_congr_left fun here => ?_
      rw [unmoved passed mem key (of_decide_eq_true here) notAfter]
    refine .inr ⟨count, parent, reached, ?_, ?_⟩
    · have long := congrArg length same
      rw [length_take, length_take, min_eq_left inside] at long
      exact min_eq_left_iff.mp long
    · rw [ran, take_listedChildren same]

/-- What a listing has returned, over a whole run. -/
theorem Lists.run (lists : Lists id enumeration) (ahead : AheadRun config id enumeration turns)
    (ran : enumeration.run config id turns = some last) : Lists id last := by
  induction turns generalizing enumeration with
  | nil =>
    cases ran
    exact lists
  | cons next rest ih =>
    rw [Enumeration.run, foldlM_cons, bind_eq_bind, bind_eq_some_iff] at ran
    rcases ran with ⟨after, turned, later⟩
    refine ih ?_ (ahead.2 after turned) later
    cases next with
    | reply acquireLookups => exact lists.reply turned
    | change request => exact lists.change ahead.1 turned

theorem reached_of_turn {next : Turn} (reached : Reached config enumeration.catalog)
    (turned : enumeration.turn config id next = some after) : Reached config after.catalog := by
  cases next with
  | reply acquireLookups =>
    rw [turn] at turned
    split at turned
    · rename_i catalog entries read
      cases turned
      have served : enumeration.catalog.serve config
          (granted (.readDirectory id enumeration.offset acquireLookups)) = some catalog := by
        rw [serve, granted, dispatch, read]
        rfl
      exact reached.served served
    · cases turned
  | change request =>
    rw [turn, map_eq_some_iff] at turned
    rcases turned with ⟨catalog, served, rfl⟩
    exact reached.served served

theorem last_of_run {child : ℕ} (reached : Reached config enumeration.catalog)
    (throughout : Throughout config key child enumeration turns)
    (ran : enumeration.run config key.parent turns = some last) :
    Reached config last.catalog ∧ last.catalog.entries.get? key = some child := by
  induction turns generalizing enumeration with
  | nil =>
    cases ran
    exact ⟨reached, throughout⟩
  | cons next rest ih =>
    rw [Enumeration.run, foldlM_cons, bind_eq_bind, bind_eq_some_iff] at ran
    rcases ran with ⟨after, turned, later⟩
    exact ih (reached_of_turn reached turned) (throughout.2 after turned) later

theorem nodup_names (catalog : Catalog) :
    ((catalog.children id).map fun entry => entry.1.name).Nodup := by
  have distinct : ((catalog.children id).map Prod.fst).Nodup :=
    catalog.entries.keys_nodup.sublist (filter_sublist.map _)
  refine List.Nodup.map_on ?_ (List.Nodup.of_map _ distinct)
  intro left leftMem right rightMem sameName
  have leftParent := of_decide_eq_true (mem_filter.mp leftMem).2
  have rightParent := of_decide_eq_true (mem_filter.mp rightMem).2
  refine inj_on_of_nodup_map distinct leftMem rightMem ?_
  rcases right with ⟨⟨_, _⟩, _⟩
  cases leftParent
  cases rightParent
  cases sameName
  rfl

/-- An enumeration until an empty reply returns each entry that is there throughout exactly once, if
no request in between changes a name that has been passed. -/
theorem returned_once_of_aheadRun {catalog final : Catalog} {turns : List Turn} {key : EntryKey}
    {child : ℕ} {acquireLookups : Bool} (reached : Reached config catalog)
    (throughout : Throughout config key child (start catalog) turns)
    (ran : (start catalog).run config key.parent turns = some last)
    (ended : last.catalog.readDirectory key.parent last.offset acquireLookups = .ok (final, []))
    (ahead : AheadRun config key.parent (start catalog) turns) :
    (last.returned.map ListedEntry.name).count key.name = 1 ∧
      ∃ entry ∈ last.returned, entry.name = key.name ∧ entry.inode = child := by
  have lists : Lists key.parent (start catalog) := .inl ⟨rfl, rfl⟩
  rcases last_of_run reached throughout ran with ⟨lastReached, present⟩
  have valid := lastReached.validateComponent (ne_none_iff_exists'.mpr ⟨child, present⟩)
  have listed := (readDirectory_eq_ok ended).2
  rcases lists.run ahead ran with ⟨fresh, _⟩ | ⟨count, parent, behind, _, returned⟩
  · rw [fresh] at listed
    rcases listed_zero_eq_ok listed with ⟨parent, nothing⟩
    cases nothing
  · rw [behind] at listed
    have nothing := listed_eq_ok (le_add_left 2 count) listed
    have all : (last.catalog.listedChildren key.parent).take count =
        last.catalog.listedChildren key.parent := by
      apply take_of_length_le
      have short := congrArg length nothing
      rw [length_nil, length_take, length_drop] at short
      omega
    have member : (key, child) ∈ last.catalog.children key.parent :=
      mem_filter.mpr ⟨mem_pairs_iff.mpr present, decide_eq_true rfl⟩
    rw [returned, all]
    constructor
    · have notDots : key.name ∉ (dots key.parent parent).map ListedEntry.name := by
        simp only [validateComponent, bind_ok, refuse_ok] at valid
        simp only [dots, map_cons, map_nil, mem_cons, not_mem_nil, or_false]
        tauto
      rw [map_append, count_append, count_eq_zero.mpr notDots, names_listedChildren,
        count_eq_one_of_mem (nodup_names _) (mem_map.mpr ⟨_, member, rfl⟩)]
    · rcases mem_iff_getElem?.mp member with ⟨index, at_⟩
      refine ⟨⟨child, key.name, index + 3⟩, mem_append_right _ ?_, rfl, rfl⟩
      apply mem_of_getElem? (i := index)
      rw [getElem?_listedChildren, at_]
      rfl

def oneFile : Catalog :=
  ((newVolatile ⟨0, 0⟩).run ⟨255, 2 ^ 40⟩ [granted (createIn ROOT_INODE [0x61])]).getD
    (newVolatile ⟨0, 0⟩)

/-- A name behind those that have been listed comes up in between. -/
def oneFileTurns : List Turn :=
  [.reply false, .change (granted (createIn ROOT_INODE [0x62])), .reply false]

/-- A file created after the first reply does not disturb the listing. -/
theorem returned_once_of_aheadRun_on_create :
    ∃ last, (start oneFile).run ⟨255, 2 ^ 40⟩ ROOT_INODE oneFileTurns = some last ∧
      (last.returned.map ListedEntry.name).count [0x61] = 1 ∧
      ∃ entry ∈ last.returned, entry.name = [0x61] ∧ entry.inode = 2 := by
  have reached : Reached ⟨255, 2 ^ 40⟩ oneFile := (Reached.mounted (.volatile ⟨0, 0⟩)).served
    (show serve _ _ (granted (createIn ROOT_INODE [0x61])) = some oneFile from rfl)
  refine ⟨_, rfl, @returned_once_of_aheadRun _ _ oneFile _ oneFileTurns ⟨ROOT_INODE, [0x61]⟩ 2
    false reached ?_ rfl rfl ?_⟩
  · refine ⟨rfl, fun first turned => ?_⟩
    cases turned
    refine ⟨rfl, fun second turned => ?_⟩
    cases turned
    refine ⟨rfl, fun last turned => ?_⟩
    cases turned
    rfl
  · refine ⟨trivial, fun first turned => ⟨?_, fun second _ => ⟨trivial, fun last _ => trivial⟩⟩⟩
    cases turned
    intro after served entry member key _ notAfter
    cases served
    have listed : entry = (⟨ROOT_INODE, [0x61]⟩, 2) := mem_singleton.mp member
    have other : key ≠ ⟨ROOT_INODE, [0x62]⟩ := by
      rintro rfl
      rw [listed] at notAfter
      exact notAfter (by decide)
    exact get?_insert.trans (if_neg other)

def crowdedName (index : ℕ) : Bytes :=
  [UInt8.ofNat (0x61 + index / 16), UInt8.ofNat (0x61 + index % 16)]

theorem crowdedName_lt {left right : ℕ} (lower : left < right) (small : right < 254) :
    crowdedName left < crowdedName right := by
  have byte_lt : ∀ {low high : ℕ}, low < high → high < 256 →
      UInt8.ofNat low < UInt8.ofNat high := by
    intro low high below bounded
    rw [lt_iff_toNat_lt, toNat_ofNat', toNat_ofNat', mod_eq_of_lt, mod_eq_of_lt] <;> omega
  rw [crowdedName, crowdedName, cons_lt_cons_iff, cons_lt_cons_iff]
  rcases Nat.lt_or_eq_of_le (Nat.div_le_div_right (c := 16) (Nat.le_of_lt lower)) with below | same
  · exact .inl (byte_lt (by omega) (by omega))
  · exact .inr ⟨by rw [same], .inl (byte_lt (by omega) (by omega))⟩

/-- 254 directories in the root. -/
def crowdedSnapshot : CommittedNamespaceSnapshot := wideSnapshot crowdedName 254

def crowdedInodes : SortedMap ℕ Inode where
  pairs := (ROOT_INODE, crowdedSnapshot.root) :: crowdedSnapshot.objects
  sorted := by
    have keys : (((ROOT_INODE, crowdedSnapshot.root) :: crowdedSnapshot.objects).map
        Prod.fst).Pairwise (· < ·) := by
      rw [List.map_cons, crowdedSnapshot, keys_wide, List.pairwise_cons, List.pairwise_map]
      refine ⟨?_, List.pairwise_lt_range.imp fun lower => Nat.add_lt_add_right lower 2⟩
      intro key member
      rcases List.mem_map.mp member with ⟨index, _, rfl⟩
      change 1 < index + 2
      omega
    exact List.pairwise_map.mp keys

def crowdedEntries : SortedMap EntryKey ℕ where
  pairs := crowdedSnapshot.entries
  sorted := by
    refine List.pairwise_map.mpr (List.Pairwise.imp_of_mem ?_ List.pairwise_lt_range)
    intro left right _ rightMember lower
    exact .inr ⟨rfl, crowdedName_lt lower (List.mem_range.mp rightMember)⟩

/-- A directory that takes more than one reply to list. -/
def crowded : Catalog :=
  { nameless crowdedSnapshot crowdedInodes with entries := crowdedEntries }.withRootLinks

theorem fromCommitted_crowded : fromCommitted wideConfig crowdedSnapshot = .ok crowded := by
  have valid : ∀ index < 254, validateComponent wideConfig (crowdedName index) = .ok () := by
    intro index below
    refine validateComponent_of_letters (by simp [crowdedName]) (by simp [crowdedName]) ?_
    intro byte mem
    rw [crowdedName, mem_pair] at mem
    have high : ∀ offset < 16, (0x30 : UInt8) ≤ UInt8.ofNat (0x61 + offset) := by decide
    rcases mem with rfl | rfl
    · exact high _ (by omega)
    · exact high _ (mod_lt _ (by decide))
  have ne : ∀ left < 254, ∀ right < 254, crowdedName left = crowdedName right → left = right := by
    intro left leftLt right rightLt same
    by_contra ne
    rcases lt_or_gt_of_ne ne with lower | higher
    · exact List.lt_irrefl _ (same ▸ crowdedName_lt lower rightLt)
    · exact List.lt_irrefl _ (same ▸ crowdedName_lt higher leftLt)
  have wellFormed : crowdedSnapshot.WellFormed wideConfig := wellFormed_wide valid ne (by decide)
  have small : ∀ object ∈ crowdedSnapshot.objects, object.2.linkCount < 2 ^ 32 := by
    intro object mem
    rcases mem_objects_wide mem with ⟨_, _, _, _, links⟩
    rw [links]
    decide
  have rootFits : 2 + crowdedSnapshot.graph.childDirectories ROOT_INODE < 2 ^ 32 := by
    rw [crowdedSnapshot, childDirectories_wide_root]
    decide
  rcases exists_fromCommitted (by decide) wellFormed rootFits small with ⟨catalog, mounted⟩
  rcases fromCommitted_eq_ok mounted with ⟨named, _, accepted, rfl, _, placed, entered⟩
  have inodes : named.inodes = crowdedInodes := by
    refine eq_of_perm ((foldlM_mountObject_eq_ok placed).2.2.trans ?_)
    exact perm_append_singleton _ _
  have entries : named.entries = crowdedEntries := by
    refine eq_of_perm ((foldlM_mountEntry_eq_ok entered).2.2.1.trans ?_)
    exact List.Perm.of_eq (append_nil _)
  rw [mounted, crowded, accepted.naming.shape, inodes, entries]

def crowdedTurns : List Turn :=
  [.change (granted (createIn ROOT_INODE [0x41])), .reply false,
    .change (granted (.unlink ROOT_INODE [0x41]))]

/-- A name before the position is removed between two replies. The last directory is there all the
time and is not returned. -/
theorem directory_entry_skipped :
    Reached wideConfig crowded ∧
    Throughout wideConfig ⟨ROOT_INODE, crowdedName 253⟩ 255 (start crowded) crowdedTurns ∧
    ∃ last final, (start crowded).run wideConfig ROOT_INODE crowdedTurns = some last ∧
      last.catalog.readDirectory ROOT_INODE last.offset false = .ok (final, []) ∧
      ∀ entry ∈ last.returned, entry.name ≠ crowdedName 253 := by
  have steps : ((start crowded).turn wideConfig ROOT_INODE
      (.change (granted (createIn ROOT_INODE [0x41])))).any fun first =>
        decide (first.catalog.entries.get? ⟨ROOT_INODE, crowdedName 253⟩ = some 255) &&
        (first.turn wideConfig ROOT_INODE (.reply false)).any fun second =>
          decide (second.catalog.entries.get? ⟨ROOT_INODE, crowdedName 253⟩ = some 255) &&
          (second.turn wideConfig ROOT_INODE
            (.change (granted (.unlink ROOT_INODE [0x41])))).any fun last =>
            decide (last.catalog.entries.get? ⟨ROOT_INODE, crowdedName 253⟩ = some 255 ∧
              (∀ entry ∈ last.returned, entry.name ≠ crowdedName 253) ∧
              (last.catalog.readDirectory ROOT_INODE last.offset false).toOption.map
                Prod.snd = some []) := by
    decide +kernel
  simp only [Option.any_eq_true, Bool.and_eq_true, decide_eq_true_eq,
    Option.map_eq_some_iff] at steps
  rcases steps with ⟨first, created, here, second, replied, still, last, unlinked, present, missing,
    ⟨final, shown⟩, read, empty⟩
  refine ⟨.mounted (.committed fromCommitted_crowded), ?_, last, final, ?_, ?_, missing⟩
  · refine ⟨SortedMap.get?_of_mem (mem_map.mpr ⟨253, by decide, rfl⟩), fun after turned => ?_⟩
    cases turned.symm.trans created
    refine ⟨here, fun after turned => ?_⟩
    cases turned.symm.trans replied
    refine ⟨still, fun after turned => ?_⟩
    cases turned.symm.trans unlinked
    exact present
  · rw [run, crowdedTurns, foldlM_cons, created, Option.bind_eq_bind, Option.bind_some,
      foldlM_cons, replied, Option.bind_eq_bind, Option.bind_some, foldlM_cons, unlinked]
    rfl
  · cases empty
    cases reply : last.catalog.readDirectory ROOT_INODE last.offset false with
    | error failure =>
      rw [reply] at read
      cases read
    | ok result =>
      rw [reply] at read
      cases read
      rfl

end Enumeration

end Fastdup.Posix.Catalog
