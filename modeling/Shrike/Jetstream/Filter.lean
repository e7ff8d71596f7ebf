import Shrike.Cbor.Link
import Shrike.Jetstream.Convert

/-!
# Filters

A filter holds DIDs, kinds and collections, and is applied twice: to the raw columns of a row of the
archive before it is converted, and to an event. The two agree on every row that is converted.
-/

namespace Shrike.Jetstream

open Bytes Syntax

/-- Why a filter is refused. -/
structure InvalidConfig where
  message : String

/-! ### Namespaces -/

/-- Validate a label of the namespace of a wildcard. -/
def validateDomainLabel (label : Bytes) : Except InvalidConfig Unit :=
  match label with
  | [] => .error ⟨"invalid label"⟩
  | first :: rest =>
      if 63 < label.length then .error ⟨"invalid label"⟩
      else if !isAsciiAlphanumeric first || !isAsciiAlphanumeric (label.getLastD first) then
        .error ⟨"invalid label"⟩
      else if !rest.dropLast.all Nsid.isAlphanumericOrHyphen then .error ⟨"invalid label"⟩
      else .ok ()

/-- The refusal of a namespace. -/
def namespaceError : InvalidConfig := ⟨"collection wildcard namespace is not a valid NSID prefix"⟩

/-- Validate the labels of a namespace, of which the first is numbered `i`. -/
def validateNamespaceLabels : (i : ℕ) → List Bytes → Except InvalidConfig Unit
  | _, [] => .ok ()
  | i, label :: labels => do
      (validateDomainLabel label).mapError fun _ => namespaceError
      if i = 0 ∧ !(label.head?.any isAsciiAlphabetic) then .error namespaceError
      else validateNamespaceLabels (i + 1) labels

/-- Validate the namespace of a wildcard. -/
def validateWildcardNamespace (namespace' : Bytes) : Except InvalidConfig Unit :=
  if namespace' = [] ∨ 253 < namespace'.length then .error namespaceError
  else do
    let labels := namespace'.splitOn (char '.')
    validateNamespaceLabels 0 labels
    if labels.length < 2 then .error namespaceError
    else .ok ()

/-- The prefix of a wildcard: a namespace in lower case, with the dot after it. -/
structure NamespacePrefix where
  raw : Bytes
  valid : ∃ namespace', validateWildcardNamespace namespace' = .ok ()
    ∧ raw = namespace'.map toAsciiLowercase ++ [char '.']

/-- A predicate on collections: one NSID, or those in a namespace. -/
inductive CollectionFilter where
  | exact (nsid : Nsid)
  | prefixed (namespace' : NamespacePrefix)

/-- Whether a collection passes. -/
def CollectionFilter.«matches» (filter : CollectionFilter) (collection : Nsid) : Bool :=
  match filter with
  | .exact nsid => nsid = collection
  | .prefixed namespace' => namespace'.raw.isPrefixOf collection.raw

/-- The predicate that a text spells. -/
def CollectionFilter.parse (raw : Bytes) : Except InvalidConfig CollectionFilter :=
  match Cbor.stripSuffix (ascii ".*") raw with
  | some namespace' =>
      match h : validateWildcardNamespace namespace' with
      | .error e => .error e
      | .ok () => .ok (.prefixed ⟨namespace'.map toAsciiLowercase ++ [char '.'], namespace', h, rfl⟩)
  | none => do
      let nsid ← (Nsid.tryFrom raw).mapError fun _ =>
        ⟨"collection is not a valid NSID or wildcard"⟩
      .ok (.exact nsid)

/-! ### Filters -/

/-- A filter. An empty list lets everything pass. -/
structure Filter where
  kinds : List Kind
  dids : List Did
  collections : List CollectionFilter

namespace Filter

/-- The filter that everything passes. -/
def new : Filter := { kinds := [], dids := [], collections := [] }

/-- Add a predicate on collections. -/
def collection (f : Filter) (raw : Bytes) : Except InvalidConfig Filter := do
  let c ← CollectionFilter.parse raw
  .ok { f with collections := f.collections ++ [c] }

/-- Add a number of predicates on collections. -/
def addCollections (f : Filter) (raws : List Bytes) : Except InvalidConfig Filter :=
  raws.foldlM collection f

variable [SyncMessages]

/-- Whether an event passes the predicate on collections, which only constrains commits. -/
def matchesCollection (f : Filter) (payload : EventPayload) : Bool :=
  match payload with
  | .commit commit => f.collections.any fun c => c.matches commit.collection
  | _ => true

/-- Whether an event passes. -/
def «matches» (f : Filter) (event : Event) : Bool :=
  if f.kinds ≠ [] ∧ event.kind ∉ f.kinds then false
  else if f.dids ≠ [] ∧ event.did ∉ f.dids then false
  else if f.collections = [] then true
  else f.matchesCollection event.payload

end Filter

/-! ### Raw rows -/

/-- Whether a collection spells an NSID. -/
def matchesExact (raw : Bytes) (expected : Nsid) : Bool :=
  if raw = expected.raw then true
  else if raw.length ≠ expected.raw.length then false
  else
    let dot := (rfind (char '.') expected.raw).getD 0
    raw.drop dot == expected.raw.drop dot
      && eqIgnoreAsciiCase (raw.take dot) (expected.raw.take dot)

/-- What matching a row has shown about its columns. -/
structure SegmentSelection where
  collection : Option Nsid
  didValidated : Bool

namespace Filter

/-- The first NSID of a filter that a collection spells. -/
def exactMatch (f : Filter) (collection : Bytes) : Option Nsid :=
  f.collections.findSome? fun predicate =>
    match predicate with
    | .exact nsid => if matchesExact collection nsid then some nsid else none
    | .prefixed _ => none

/-- Whether a collection is in a namespace. -/
def matchesPrefix (collection : Str) (predicate : CollectionFilter) : Bool :=
  match predicate with
  | .exact _ => false
  | .prefixed namespace' =>
      (collection.get 0 namespace'.raw.length).any fun s =>
        eqIgnoreAsciiCase s.val namespace'.raw

/-- Whether a predicate is a wildcard. -/
def isWildcard (predicate : CollectionFilter) : Bool :=
  match predicate with
  | .exact _ => false
  | .prefixed _ => true

/-- What matching the collection of a commit shows about it. A collection that spells none of the
NSIDs is validated before it is compared to the namespaces. -/
def selectCollection (f : Filter) (didValidated : Bool) (collection : Str) :
    Option SegmentSelection :=
  match f.exactMatch collection.val with
  | some nsid => some { collection := some nsid, didValidated }
  | none =>
      if !f.collections.any isWildcard then none
      else
        match Nsid.validate collection.val with
        | .ok _ =>
            if f.collections.any (matchesPrefix collection) then
              some { collection := none, didValidated }
            else none
        | .error _ => none

/-- What matching a row shows about its columns, if it passes. -/
def selectSegment (f : Filter) (kind : Kind) (did collection : Str) : Option SegmentSelection :=
  let didValidated := decide (f.dids ≠ [])
  if f.kinds ≠ [] ∧ kind ∉ f.kinds then none
  else if f.dids ≠ [] ∧ did.val ∉ f.dids.map Did.raw then none
  else if f.collections = [] then some { collection := none, didValidated }
  else if kind ≠ .commit ∨ collection.val = [] then some { collection := none, didValidated }
  else f.selectCollection didValidated collection

/-- Whether a row passes. -/
def matchesSegment (f : Filter) (kind : Kind) (did collection : Str) : Bool :=
  (f.selectSegment kind did collection).isSome

end Filter

/-! ### What matching shows -/

/-- A collection spells an NSID exactly if it matches it. -/
theorem matchesExact_iff {raw : Bytes} {expected : Nsid} :
  matchesExact raw expected = true ↔ Nsid.tryFrom raw = .ok expected
  := by
  have hfind : ∀ authority name : Bytes, char '.' ∉ name →
      (rfind (char '.') (authority ++ char '.' :: name)).getD 0 = authority.length := by
    intro authority name hname
    rw [rfind_append authority hname, Option.getD_some]
  rw [Nsid.tryFrom_eq_ok]
  constructor
  · intro h
    obtain ⟨given, lastDot, hvalid, hexpected⟩ := expected.valid
    have hlower := Nsid.validate_lowercasePrefix hvalid
    rw [← hexpected] at hlower
    obtain ⟨authority, name, hsplit, hlength, hname⟩ := Nsid.split_of_validate hlower
    have hnormal : lowercasePrefix lastDot expected.raw = expected.raw := by
      rw [hexpected, lowercasePrefix_idem]
    rw [matchesExact] at h
    split_ifs at h with heq hne
    · exact ⟨lastDot, heq ▸ hlower, by rw [heq, hnormal]⟩
    · rw [hsplit, hfind authority name hname] at h
      rw [Bool.and_eq_true, beq_iff_eq, List.drop_left, List.take_left, eqIgnoreAsciiCase,
        beq_iff_eq] at h
      obtain ⟨hdrop, htake⟩ := h
      have hraw : raw.take authority.length ++ char '.' :: name = raw := by
        rw [← hdrop, List.take_append_drop]
      refine ⟨lastDot, ?_, ?_⟩
      · rw [← hraw, Nsid.validate_congr htake hname, ← hsplit, hlower]
      · rw [lowercasePrefix, ← hlength, htake, hdrop, ← hnormal, hsplit, lowercasePrefix, ← hlength,
          List.take_left, List.drop_left]
  · rintro ⟨lastDot, hvalid, hexpected⟩
    obtain ⟨authority, name, hsplit, hlength, hname⟩ := Nsid.split_of_validate hvalid
    rw [hsplit, lowercasePrefix, ← hlength, List.take_left, List.drop_left] at hexpected
    have hdot := hfind (authority.map toAsciiLowercase) name hname
    rw [List.length_map] at hdot
    rw [matchesExact, hsplit, hexpected, hdot]
    dsimp only
    split_ifs with heq hne
    · rfl
    · exact absurd (by simp) hne
    · rw [List.drop_left, List.take_left, List.drop_left' (by simp), List.take_left' (by simp),
        beq_self_eq_true, Bool.true_and, eqIgnoreAsciiCase, map_toAsciiLowercase_idem,
        beq_self_eq_true]

/-- The namespace of a wildcard is in lower case and ends with a dot. -/
theorem NamespacePrefix.raw_eq (namespace' : NamespacePrefix) :
  ∃ labels, namespace'.raw = labels ++ [char '.']
    ∧ namespace'.raw.map toAsciiLowercase = namespace'.raw
  := by
  obtain ⟨given, -, hraw⟩ := namespace'.valid
  refine ⟨given.map toAsciiLowercase, hraw, ?_⟩
  rw [hraw, List.map_append, map_toAsciiLowercase_idem]
  rfl

/-- A valid collection is in a namespace exactly if its NSID starts with it. -/
theorem matchesPrefix_eq {collection : Str} {lastDot : ℕ}
    (h : Nsid.validate collection.val = .ok lastDot) (namespace' : NamespacePrefix) :
  Filter.matchesPrefix collection (.prefixed namespace')
    = namespace'.raw.isPrefixOf (lowercasePrefix lastDot collection.val)
  := by
  obtain ⟨authority, name, hsplit, hlength, hname⟩ := Nsid.split_of_validate h
  obtain ⟨labels, hlabels, hlower⟩ := namespace'.raw_eq
  have hascii := Nsid.isAscii_of_validate h
  have hnormal : lowercasePrefix lastDot collection.val
      = (authority ++ [char '.']).map toAsciiLowercase ++ name := by
    rw [hsplit, lowercasePrefix, ← hlength, List.take_left, List.drop_left, List.map_append,
      List.append_assoc]
    rfl
  rw [Bool.eq_iff_iff, List.isPrefixOf_iff_prefix, Filter.matchesPrefix, Option.any_eq_true]
  have hauthority : authority ++ [char '.'] <+: collection.val :=
    ⟨name, by rw [hsplit, List.append_assoc, List.singleton_append]⟩
  constructor
  · rintro ⟨s, hs, hcase⟩
    have hval := Str.val_get hs
    rw [List.drop_zero] at hval
    rw [eqIgnoreAsciiCase, beq_iff_eq, hlower, hval] at hcase
    -- The prefix ends with a dot of the collection, which is not one of its name.
    obtain ⟨taken, last, htake, htaken, hlast⟩ := List.map_eq_append_iff.mp (hcase.trans hlabels)
    have hdot : last = [char '.'] := by
      obtain ⟨b, rfl, hb⟩ := List.map_eq_singleton_iff.mp hlast
      rw [(Nsid.toAsciiLowercase_eq_dot b).mp hb]
    rw [hdot] at htake
    have hle : taken.length ≤ authority.length := by
      apply length_le_of_append _ hname
      · exact collection.val.drop namespace'.raw.length
      · rw [← hsplit, ← List.singleton_append, ← List.append_assoc, ← htake, List.take_append_drop]
    have hpre : taken ++ [char '.'] <+: authority ++ [char '.'] := by
      apply List.prefix_of_prefix_length_le _ hauthority (by simpa using hle)
      rw [← htake]
      exact List.take_prefix _ _
    rw [hnormal, ← hcase, htake]
    exact (hpre.map toAsciiLowercase).trans (List.prefix_append _ _)
  · intro hpre
    rw [hnormal] at hpre
    obtain ⟨rest, hrest⟩ := id hpre
    rw [hlabels, List.map_append, List.append_assoc, List.append_assoc] at hrest
    have hle := length_le_of_append hrest hname
    rw [List.length_map] at hle
    have hlen : namespace'.raw.length ≤ (authority ++ [char '.']).length := by
      rw [hlabels]
      simpa using hle
    have htake : collection.val.take namespace'.raw.length
        = (authority ++ [char '.']).take namespace'.raw.length := by
      obtain ⟨after, hafter⟩ := hauthority
      rw [← hafter, List.take_append_of_le_length hlen]
    obtain ⟨s, hs, hval⟩ := Str.get_of_ascii hascii (Nat.zero_le namespace'.raw.length)
      (hlen.trans hauthority.length_le)
    refine ⟨s, hs, ?_⟩
    rw [eqIgnoreAsciiCase, hval, List.drop_zero, htake, hlower, beq_iff_eq, List.map_take]
    symm
    apply List.prefix_iff_eq_take.mp
    apply List.prefix_of_prefix_length_le hpre (List.prefix_append _ _)
    rwa [List.length_map]

namespace Filter

variable {f : Filter} {did collection : Str}

/-- A DID that a filter names is valid. -/
theorem did_of_mem (h : did.val ∈ f.dids.map Did.raw) :
  ∃ d ∈ f.dids, parseDid did = .ok d
  := by
  obtain ⟨d, hd, hraw⟩ := List.mem_map.mp h
  refine ⟨d, hd, ?_⟩
  rw [parseDid, Except.mapError_eq_ok, Did.tryFrom_eq_ok, hraw]

/-- What a matched collection spells is the NSID that it matched. -/
theorem exactMatch_some {nsid : Nsid} (h : f.exactMatch collection.val = some nsid) :
  .exact nsid ∈ f.collections ∧ parseCollection collection = .ok nsid
  := by
  obtain ⟨predicate, hmem, hmatch⟩ := List.exists_of_findSome?_eq_some h
  cases predicate with
  | prefixed namespace' => cases hmatch
  | exact expected =>
      dsimp only at hmatch
      split_ifs at hmatch with hexact
      cases hmatch
      exact ⟨hmem, Except.mapError_eq_ok.mpr (matchesExact_iff.mp hexact)⟩

theorem isWildcard_of_matchesPrefix (h : f.collections.any (matchesPrefix collection) = true) :
  f.collections.any isWildcard = true
  := by
  obtain ⟨predicate, hmem, hmatch⟩ := List.any_eq_true.mp h
  refine List.any_eq_true.mpr ⟨predicate, hmem, ?_⟩
  cases predicate with
  | exact expected => cases hmatch
  | prefixed namespace' => rfl

variable {didValidated : Bool}

/-- A valid collection is selected if it spells an NSID of the filter or is in a namespace of it. -/
theorem selectCollection_isSome {lastDot : ℕ} (h : Nsid.validate collection.val = .ok lastDot) :
  (f.selectCollection didValidated collection).isSome = true
    ↔ (f.exactMatch collection.val).isSome = true
      ∨ f.collections.any (matchesPrefix collection) = true
  := by
  rw [selectCollection]
  cases f.exactMatch collection.val with
  | some nsid => simp
  | none =>
      by_cases hany : f.collections.any (matchesPrefix collection) = true
      · simp [h, hany, isWildcard_of_matchesPrefix hany]
      · simp [h, hany]

/-- A collection that is an NSID is selected exactly if the NSID passes. -/
theorem selectCollection_iff {nsid : Nsid} (h : parseCollection collection = .ok nsid) :
  (f.selectCollection didValidated collection).isSome = true
    ↔ f.collections.any (fun c => c.matches nsid) = true
  := by
  have htry := Except.mapError_eq_ok.mp h
  obtain ⟨lastDot, hvalid, hraw⟩ := Nsid.tryFrom_eq_ok.mp htry
  rw [selectCollection_isSome hvalid]
  constructor
  · rintro (hexact | hpre)
    · obtain ⟨expected, hexpected⟩ := Option.isSome_iff_exists.mp hexact
      obtain ⟨hmem, hparse⟩ := exactMatch_some hexpected
      rw [h] at hparse
      cases hparse
      exact List.any_eq_true.mpr ⟨.exact nsid, hmem, decide_eq_true rfl⟩
    · obtain ⟨predicate, hmem, hmatch⟩ := List.any_eq_true.mp hpre
      refine List.any_eq_true.mpr ⟨predicate, hmem, ?_⟩
      cases predicate with
      | exact expected => cases hmatch
      | prefixed namespace' =>
          rw [matchesPrefix_eq hvalid, ← hraw] at hmatch
          exact hmatch
  · intro hany
    obtain ⟨predicate, hmem, hmatch⟩ := List.any_eq_true.mp hany
    cases predicate with
    | exact expected =>
        left
        rw [CollectionFilter.matches, decide_eq_true_eq] at hmatch
        rw [exactMatch, List.findSome?_isSome_iff]
        refine ⟨.exact expected, hmem, ?_⟩
        dsimp only
        rw [if_pos (matchesExact_iff.mpr (hmatch ▸ htry))]
        rfl
    | prefixed namespace' =>
        right
        refine List.any_eq_true.mpr ⟨.prefixed namespace', hmem, ?_⟩
        rw [matchesPrefix_eq hvalid, ← hraw]
        exact hmatch

theorem selectCollection_some
    {selected : SegmentSelection} (h : f.selectCollection didValidated collection = some selected) :
  selected.didValidated = didValidated
    ∧ ∀ nsid ∈ selected.collection, parseCollection collection = .ok nsid
  := by
  rw [selectCollection] at h
  split at h
  · rename_i nsid hexact
    cases h
    refine ⟨rfl, fun nsid' hnsid => ?_⟩
    cases hnsid
    exact (exactMatch_some hexact).2
  · split at h
    · cases h
    · split at h
      · split at h
        · cases h
          exact ⟨rfl, nofun⟩
        · cases h
      · cases h

/-- What a selection says of the columns of its row is true. -/
theorem selectSegment_some {kind : Kind}
    {selected : SegmentSelection} (h : f.selectSegment kind did collection = some selected) :
  (selected.didValidated = true → ∃ d, parseDid did = .ok d)
    ∧ ∀ nsid ∈ selected.collection, parseCollection collection = .ok nsid
  := by
  rw [selectSegment] at h
  split_ifs at h with hkinds hdids hcollections hbypass
  all_goals
    have hvalid : decide (f.dids ≠ []) = true → ∃ d, parseDid did = .ok d := by
      intro hne
      obtain ⟨d, -, hd⟩ := did_of_mem (not_not.mp fun hmem => hdids ⟨of_decide_eq_true hne, hmem⟩)
      exact ⟨d, hd⟩
  · cases h
    exact ⟨hvalid, nofun⟩
  · cases h
    exact ⟨hvalid, nofun⟩
  · obtain ⟨hdid, hcollection⟩ := selectCollection_some h
    rw [hdid]
    exact ⟨hvalid, hcollection⟩

end Filter

/-! ### Rows and events -/

/-- The text of a column, or the empty one. -/
def TextColumn.textOrEmpty (col : TextColumn) : Str := col.text.getD ⟨[], rfl⟩

theorem textOrEmpty_eq {col : TextColumn} {s : Str} (h : strCol col = .ok s) :
  col.textOrEmpty = s
  := by
  rw [TextColumn.textOrEmpty, Except.ofOption_eq_ok.mp h, Option.getD_some]

theorem mem_dids_iff {dids : List Did} {text : Str} {did : Did} (h : parseDid text = .ok did) :
  text.val ∈ dids.map Did.raw ↔ did ∈ dids
  := by
  rw [parseDid, Except.mapError_eq_ok, Did.tryFrom_eq_ok] at h
  rw [List.mem_map]
  constructor
  · rintro ⟨d, hd, hraw⟩
    obtain ⟨text', hvalid'⟩ := d
    obtain ⟨text'', hvalid''⟩ := did
    obtain rfl : text' = text'' := hraw.trans h.symm
    exact hd
  · exact fun hdid => ⟨did, hdid, h⟩

theorem ne_nil_of_parseCollection {text : Str} {nsid : Nsid} (h : parseCollection text = .ok nsid) :
  text.val ≠ []
  := by
  obtain ⟨lastDot, hvalid, -⟩ := Nsid.tryFrom_eq_ok.mp (Except.mapError_eq_ok.mp h)
  intro hnil
  rw [hnil] at hvalid
  cases hvalid

namespace Filter

variable [SyncMessages]

/-- A row passes exactly if the event that it spells does. -/
theorem matchesSegment_toEvent (f : Filter) {raw : Columns} {payload : Bytes} {e : Event}
    (h : toEvent raw payload = .ok e) :
  f.matchesSegment raw.kind.publicKind raw.did.textOrEmpty raw.collection.textOrEmpty
    = f.matches e
  := by
  obtain ⟨did, hdid, hparsed, hcarried⟩ := toEvent_ok h
  obtain ⟨hkind, hcommit, hmarker⟩ := toPayload_ok hcarried
  rw [matchesSegment, selectSegment, «matches», textOrEmpty_eq hdid, hkind]
  simp only [mem_dids_iff hparsed]
  split_ifs with hkinds hdids hcollections hbypass
  · rfl
  · rfl
  · rfl
  · rw [matchesCollection.eq_def]
    split
    · rename_i commit hcarried'
      have hpublic : raw.kind.publicKind = .commit := by
        by_contra hne
        exact hmarker hne commit hcarried'
      obtain ⟨_, collection, -, htext, hcollection⟩ := hcommit hpublic
      rw [textOrEmpty_eq htext] at hbypass
      exact absurd (hbypass.resolve_left (not_not_intro hpublic))
        (ne_nil_of_parseCollection hcollection)
    · rfl
  · rw [not_or, not_not] at hbypass
    obtain ⟨commit, collection, hcarried', htext, hcollection⟩ := hcommit hbypass.1
    rw [hcarried', matchesCollection, textOrEmpty_eq htext, Bool.eq_iff_iff]
    exact selectCollection_iff hcollection

/-- The filter lets a row of the archive that is converted pass exactly if it lets the event that
the row is converted to pass, whatever the converter has cached. -/
theorem matchesSegment_converted (f : Filter) (c : RowConverter) {raw : Columns} {payload : Bytes}
    {e : Event} (h : (RowConverter.convert raw payload c).1 = .ok e) :
  f.matchesSegment raw.kind.publicKind raw.did.textOrEmpty raw.collection.textOrEmpty
    = f.matches e
  := by
  rw [RowConverter.convert_yields raw payload c] at h
  exact f.matchesSegment_toEvent h

end Filter

/-! ### A row in a namespace -/

namespace Shouted

/-- No message is read. -/
@[reducible] def noMessages : SyncMessages where
  Identity := Empty
  Account := Empty
  Sync := Empty
  identityFromCbor _ := none
  accountFromCbor _ := none
  syncFromCbor _ := none

attribute [local instance] noMessages

/-- A filter for one NSID and one namespace. -/
def filter : Except InvalidConfig Filter :=
  Filter.new.addCollections [ascii "App.Bsky.Feed.like", ascii "app.bsky.graph.*"]

/-- A commit to a collection in the namespace, in upper case. -/
def columns : Columns where
  seq := 1
  witnessedAt := 5
  indexedAt := 0
  kind := .create
  collection := .raw (ascii "APP.BSKY.GRAPH.follow")
  did := .raw (ascii "did:plc:abc")
  rkey := .raw (ascii "self")
  rev := .raw (ascii "3jzfcijpj2z2a")

/-- The event of the commit. -/
def event : Event where
  seq := 1
  did := ⟨ascii "did:plc:abc", by decide⟩
  timeUs := 5
  payload := .commit
    { operation := .create
      collection := ⟨ascii "app.bsky.graph.follow", ascii "APP.BSKY.GRAPH.follow", 14,
        by decide, by decide⟩
      rkey := ⟨ascii "self", by decide⟩
      rev := ⟨1728652679052295174⟩
      record := some (Record.fromCanonicalCbor [0xa0]) }

/-- The row and the event of the commit both pass. -/
theorem matchesSegment_columns :
  ∃ f, filter = .ok f ∧ (RowConverter.convert columns [0xa0] .default).1 = .ok event
    ∧ f.matchesSegment .commit columns.did.textOrEmpty columns.collection.textOrEmpty
      = f.matches event
    ∧ f.matches event = true
  := by
  have hconvert : (RowConverter.convert columns [0xa0] .default).1 = .ok event := by rfl
  refine ⟨_, rfl, hconvert, Filter.matchesSegment_converted _ .default hconvert, ?_⟩
  decide

end Shouted

end Shrike.Jetstream
