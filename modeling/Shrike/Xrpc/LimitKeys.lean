import Shrike.Xrpc.RateLimits

/-!
# Keys of limits

When the limiters of two definitions of limits can come to the same store key.
-/

namespace Shrike.Xrpc

open Bytes Net

variable {Auth : Type}

/-! ### Definitions of limits -/

inductive Scope where
  | global
  | shared
  deriving DecidableEq

/-- What defines a limit: a name, or a position in a route. -/
inductive LimitId where
  | named (scope : Scope) (name : Bytes)
  | own (nsid : Bytes) (kind : Kind) (position : ℕ)
  deriving DecidableEq

/-- What defines the limit at a position of a route. -/
def RouteRateLimit.id (r : RouteRateLimit Auth) (nsid : Bytes) (kind : Kind) (i : ℕ) : LimitId :=
  match r.kind with
  | .shared name => .named .shared name
  | .own _ _ => .own nsid kind i

/-- What defines the limiters of a request. -/
def Server.limitIds (server : Server Auth) (req : Dispatched) : List LimitId :=
  let globals := server.rateLimits.global.map fun g => LimitId.named .global g.name
  match parseXrpcPath req.path with
  | none => []
  | some nsid =>
      let slots := server.routes nsid
      match slots.kindOf req.method req.isWebsocketUpgrade with
      | none => globals
      | some kind =>
          match slots.get kind with
          | none => globals
          | some route => route.zipIdx.map (fun r => r.1.id nsid kind r.2) ++ globals

/-- A request is charged for a limiter that comes from a definition. -/
def Server.Charges (server : Server Auth) (req : Dispatched) (id : LimitId)
    (limiter : Limiter Auth) : Prop :=
  ∃ limiters, server.limiters req = .ok limiters ∧ (id, limiter) ∈ (server.limitIds req).zip limiters

/-- Limiters from different definitions have different store keys, whatever their key functions
give. -/
def Server.CountersApart (server : Server Auth) : Prop :=
  ∀ req req' id id' limiter limiter', server.Charges req id limiter →
    server.Charges req' id' limiter' → id ≠ id' → ∀ calcKey calcKey' ctx ctx' key key',
      { limiter with calcKey := some calcKey }.key ctx = .ok (some key) →
        { limiter' with calcKey := some calcKey' }.key ctx' = .ok (some key') → key ≠ key'

/-! ### Names -/

/-- A name is another one, or what comes before a colon in it. -/
def UpToColon (name name' : Bytes) : Prop := name ++ [char ':'] <+: name' ++ [char ':']

/-- The names, or NSIDs and positions, of two definitions meet. -/
def LimitId.Meets : LimitId → LimitId → Prop
  | .named _ name, .named _ name' => UpToColon name name' ∨ UpToColon name' name
  | .own nsid _ i, .named _ name | .named _ name, .own nsid _ i =>
      ∃ rest, nsid ++ char '-' :: toText 10 i = ascii "rl-" ++ rest ∧ UpToColon rest name
  | .own nsid _ i, .own nsid' _ i' => nsid = nsid' ∧ i = i'

/-- The definitions that a server uses. A route with an unknown shared limit is not served. -/
inductive Server.Uses (server : Server Auth) : LimitId → Prop
  | global {g : RateLimit Auth} (h : g ∈ server.rateLimits.global) :
    server.Uses (.named .global g.name)
  | route {nsid kind} {route : List (RouteRateLimit Auth)}
      {r : RouteRateLimit Auth} {i} (hnsid : isXrpcNsid nsid = true)
      (hroute : (server.routes nsid).get kind = some route)
      (hknown : ∀ r' ∈ route, ∀ name, r'.kind = .shared name →
        ∃ s ∈ server.rateLimits.shared, s.name = name) (hr : (r, i) ∈ route.zipIdx) :
    server.Uses (r.id nsid kind i)

/-! ### Keys -/

variable {x y : Bytes}

/-- Two texts are continued to one text behind colons if and only if one is the other, or what comes
before a colon in it. -/
theorem exists_continued_iff :
  (∃ k k', x ++ char ':' :: k = y ++ char ':' :: k') ↔ UpToColon x y ∨ UpToColon y x
  := by
  constructor
  · rintro ⟨k, k', heq⟩
    have hx : x ++ [char ':'] <+: x ++ char ':' :: k := ⟨k, by simp⟩
    have hy : y ++ [char ':'] <+: x ++ char ':' :: k := ⟨k', by simp [heq]⟩
    exact List.prefix_or_prefix_of_prefix hx hy
  · rintro (⟨t, ht⟩ | ⟨t, ht⟩)
    · exact ⟨t, [], by simpa using ht⟩
    · exact ⟨[], t, by simpa using ht.symm⟩

theorem upToColon_append_left (pre : Bytes) :
  UpToColon (pre ++ x) (pre ++ y) ↔ UpToColon x y
  := by
  rw [UpToColon, List.append_assoc, List.append_assoc, List.prefix_append_right_inj]
  rfl

/-- What comes before a colon of a text without one is the text. -/
theorem upToColon_iff_eq (hy : char ':' ∉ y) :
  UpToColon x y ↔ x = y
  := by
  constructor
  · rintro ⟨t, ht⟩
    rcases List.eq_nil_or_concat t with rfl | ⟨t, b, rfl⟩
    · rw [List.append_nil] at ht
      exact List.append_cancel_right ht
    · exfalso
      apply hy
      rw [List.concat_eq_append, ← List.append_assoc] at ht
      rw [← (List.append_inj' ht rfl).1]
      simp
  · rintro rfl
    exact List.prefix_refl _

/-- The text of a position has neither a colon nor a hyphen. -/
theorem not_mem_toText {b : UInt8} (h : isAsciiDigit b = false) (i : ℕ) :
  b ∉ toText 10 i
  := by
  intro hmem
  rw [isAsciiDigit_of_mem_toText hmem] at h
  cases h

variable {i i' : ℕ}

theorem toText_injective (h : toText 10 i = toText 10 i') :
  i = i'
  := by
  rw [← ofText_toText (by omega : 1 < 10 ∧ 10 ≤ 16) i, h, ofText_toText (by omega)]

/-- The start of the keys of a definition. -/
def LimitId.text : LimitId → Bytes
  | .named _ name => ascii "rl-" ++ name
  | .own nsid _ i => nsid ++ char '-' :: toText 10 i

variable {limits : RateLimits Auth} {nsid nsid' : Bytes}

/-- An NSID of a path has letters, digits, dots and hyphens. -/
theorem not_mem_of_isSeparated {b : UInt8} (hdot : b ≠ char '.') (hhyphen : b ≠ char '-')
    (halnum : isAsciiAlphanumeric b = false) {prevSep : Bool}
    (h : isSeparated prevSep nsid = true) :
  b ∉ nsid
  := by
  induction nsid generalizing prevSep with
  | nil => exact List.not_mem_nil
  | cons b' bs ih =>
      rw [isSeparated] at h
      rw [List.mem_cons, not_or]
      split_ifs at h with hb'
      · rw [Bool.and_eq_true] at h
        refine ⟨?_, ih h.2⟩
        rintro rfl
        exact hb'.elim hdot hhyphen
      · rw [Bool.and_eq_true] at h
        refine ⟨?_, ih h.2⟩
        rintro rfl
        rw [halnum] at h
        exact absurd h.1 nofun

theorem parseXrpcPath_append (h : isXrpcNsid nsid = true) :
  parseXrpcPath (ascii "/xrpc/" ++ nsid) = some nsid
  := by
  have hslash : nsid.getLast? ≠ some (char '/') := by
    intro hlast
    exact not_mem_of_isSeparated (by decide) (by decide) rfl (Bool.and_eq_true_iff.mp h).2
      (List.mem_of_getLast? hlast)
  rw [parseXrpcPath, stripPrefix_append, Option.bind_eq_bind, Option.bind_some, if_neg hslash,
    if_pos h]

theorem isXrpcNsid_of_parseXrpcPath {path nsid : Bytes} (h : parseXrpcPath path = some nsid) :
  isXrpcNsid nsid = true
  := by
  obtain ⟨rest, -, hrest⟩ := Option.bind_eq_some_iff.mp h
  obtain ⟨hnsid, heq⟩ := Option.ite_none_right_eq_some.mp hrest
  rw [← Option.some.inj heq]
  exact hnsid

/-- The NSID of a definition of an own limit is one of a path. -/
def LimitId.Served : LimitId → Prop
  | .named _ _ => True
  | .own nsid _ _ => isXrpcNsid nsid = true

variable {kind kind' : Kind}

theorem LimitId.not_mem_text (h : (LimitId.own nsid kind i).Served) :
  char ':' ∉ nsid ++ char '-' :: toText 10 i
  := by
  rw [List.mem_append, List.mem_cons, not_or, not_or]
  refine ⟨?_, by decide, ?_⟩
  · exact not_mem_of_isSeparated (by decide) (by decide) rfl (Bool.and_eq_true_iff.mp h).2
  · exact not_mem_toText rfl i

/-- An own limit and a named one come to one key if and only if the NSID and the position are `rl-`
and what the name is up to a colon. -/
theorem LimitId.own_named (name : Bytes) (h : (LimitId.own nsid kind i).Served) :
  UpToColon (nsid ++ char '-' :: toText 10 i) (ascii "rl-" ++ name)
      ∨ UpToColon (ascii "rl-" ++ name) (nsid ++ char '-' :: toText 10 i)
    ↔ ∃ rest, nsid ++ char '-' :: toText 10 i = ascii "rl-" ++ rest ∧ UpToColon rest name
  := by
  constructor
  · intro hmeets
    have hupTo : UpToColon (nsid ++ char '-' :: toText 10 i) (ascii "rl-" ++ name) := by
      rcases hmeets with hmeets | hmeets
      · exact hmeets
      · rw [upToColon_iff_eq (not_mem_text h)] at hmeets
        rw [hmeets]
        exact List.prefix_refl _
    have hlength : 2 ≤ nsid.length := of_decide_eq_true (Bool.and_eq_true_iff.mp h).1
    have hpre : ascii "rl-" <+: nsid ++ char '-' :: toText 10 i := by
      have hname : ascii "rl-" <+: ascii "rl-" ++ name ++ [char ':'] := by
        rw [List.append_assoc]
        exact List.prefix_append _ _
      apply List.prefix_of_prefix_length_le hname
      · exact (List.prefix_append _ _).trans hupTo
      · show 3 ≤ _
        rw [List.length_append, List.length_cons]
        omega
    obtain ⟨rest, hrest⟩ := hpre
    rw [← hrest, upToColon_append_left] at hupTo
    exact ⟨rest, hrest.symm, hupTo⟩
  · rintro ⟨rest, hrest, hupTo⟩
    rw [hrest, upToColon_append_left]
    exact .inl hupTo

/-- Two own limits come to one key if and only if their NSIDs and positions agree. -/
theorem LimitId.own_own
    (h : (LimitId.own nsid kind i).Served) (h' : (LimitId.own nsid' kind' i').Served) :
  UpToColon (nsid ++ char '-' :: toText 10 i) (nsid' ++ char '-' :: toText 10 i')
      ∨ UpToColon (nsid' ++ char '-' :: toText 10 i') (nsid ++ char '-' :: toText 10 i)
    ↔ nsid = nsid' ∧ i = i'
  := by
  rw [upToColon_iff_eq (not_mem_text h), upToColon_iff_eq (not_mem_text h')]
  constructor
  · intro heq
    have htexts := heq.elim id Eq.symm
    obtain ⟨hnsid, htext⟩ := split_unique htexts (not_mem_toText rfl i) (not_mem_toText rfl i')
    exact ⟨hnsid, toText_injective htext⟩
  · rintro ⟨rfl, rfl⟩
    exact .inl rfl

/-- Two definitions come to one key if and only if they meet. -/
theorem LimitId.continued_iff {id id' : LimitId} (h : id.Served) (h' : id'.Served) :
  (∃ k k', id.text ++ char ':' :: k = id'.text ++ char ':' :: k') ↔ id.Meets id'
  := by
  rw [exists_continued_iff]
  cases id with
  | named scope name =>
      cases id' with
      | named scope' name' =>
          exact or_congr (upToColon_append_left _) (upToColon_append_left _)
      | own nsid' kind' i' =>
          rw [or_comm]
          exact own_named name h'
  | own nsid kind i =>
      cases id' with
      | named scope' name' => exact own_named name' h
      | own nsid' kind' i' => exact own_own h h'

/-! ### Limiters -/

theorem RateLimits.keyPrefix_routeLimiter
    {r : RouteRateLimit Auth} {limiter : Limiter Auth} (kind : Kind)
    (h : limits.routeLimiter nsid r i = .ok limiter) :
  limiter.keyPrefix = (r.id nsid kind i).text
  := by
  rw [routeLimiter] at h
  rw [RouteRateLimit.id]
  cases hkind : r.kind with
  | shared name =>
      rw [hkind] at h
      dsimp only at h
      cases hfind : limits.shared.find? (·.name = name) with
      | none =>
          rw [hfind] at h
          cases h
      | some s =>
          rw [hfind] at h
          cases h
          rfl
  | own duration points =>
      rw [hkind] at h
      cases h
      rfl

/-- The limit at a position has a limiter if and only if it is not an unknown shared one. -/
theorem RateLimits.exists_routeLimiter {r : RouteRateLimit Auth} :
  (∃ limiter, limits.routeLimiter nsid r i = .ok limiter)
    ↔ ∀ name, r.kind = .shared name → ∃ s ∈ limits.shared, s.name = name
  := by
  rw [routeLimiter]
  cases r.kind with
  | shared name =>
      dsimp only
      cases hfind : limits.shared.find? (·.name = name) with
      | none =>
          rw [List.find?_eq_none] at hfind
          simpa using hfind
      | some s =>
          have hname := List.find?_some hfind
          have hmem := List.mem_of_find?_eq_some hfind
          simp only [decide_eq_true_eq] at hname
          simpa using ⟨s, hmem, hname⟩
  | own duration points => simp

theorem RateLimits.mem_zip_globalLimiters {id : LimitId} {limiter : Limiter Auth} :
  (id, limiter) ∈ (limits.global.map fun g => LimitId.named .global g.name).zip
      limits.globalLimiters
    ↔ ∃ g ∈ limits.global, id = .named .global g.name
      ∧ limiter = ⟨ascii "rl-" ++ g.name, g.duration, g.points, g.calcKey, g.calcPoints,
        g.failClosed⟩
  := by
  rw [globalLimiters, List.zip_map', List.mem_map]
  simp only [Prod.mk.injEq, eq_comm]

variable {route : List (RouteRateLimit Auth)}

/-- What the limiters of a route come from. -/
theorem RateLimits.mem_zip_forRoute {limiters : List (Limiter Auth)}
    (h : limits.forRoute nsid route = .ok limiters) (kind : Kind) :
  (∀ id limiter, (id, limiter) ∈ (route.zipIdx.map (fun r => r.1.id nsid kind r.2)
      ++ limits.global.map fun g => LimitId.named .global g.name).zip limiters →
    ((∃ r ∈ route.zipIdx, id = r.1.id nsid kind r.2) ∨ ∃ g ∈ limits.global, id = .named .global g.name)
      ∧ limiter.keyPrefix = id.text)
  ∧ ∀ r ∈ route.zipIdx, ∃ limiter, (r.1.id nsid kind r.2, limiter)
      ∈ (route.zipIdx.map (fun r => r.1.id nsid kind r.2)
        ++ limits.global.map fun g => LimitId.named .global g.name).zip limiters
  := by
  obtain ⟨own, hown, heq⟩ := Except.bind_eq_ok.mp h
  cases heq
  obtain ⟨hlength, hzip⟩ := Except.mapM_eq_ok hown
  rw [List.zip_append (by rw [List.length_map, hlength]), List.zip_map_left]
  constructor
  · intro id limiter hmem
    rw [List.mem_append, List.mem_map] at hmem
    rcases hmem with ⟨p, hp, heq⟩ | hmem
    · cases heq
      exact ⟨.inl ⟨p.1, (List.of_mem_zip hp).1, rfl⟩, keyPrefix_routeLimiter kind (hzip p hp)⟩
    · obtain ⟨g, hg, rfl, rfl⟩ := mem_zip_globalLimiters.mp hmem
      exact ⟨.inr ⟨g, hg, rfl⟩, rfl⟩
  · intro r hr
    rw [← @List.map_fst_zip _ _ _ own (Nat.le_of_eq hlength)] at hr
    obtain ⟨p, hp, rfl⟩ := List.mem_map.mp hr
    exact ⟨p.2, List.mem_append_left _ (List.mem_map.mpr ⟨p, hp, rfl⟩)⟩

/-- A route has limiters if and only if its shared limits are known. -/
theorem RateLimits.exists_forRoute :
  (∃ limiters, limits.forRoute nsid route = .ok limiters) ↔ ∀ r ∈ route, ∀ name,
    r.kind = .shared name → ∃ s ∈ limits.shared, s.name = name
  := by
  constructor
  · rintro ⟨limiters, h⟩ r hr
    obtain ⟨own, hown, -⟩ := Except.bind_eq_ok.mp h
    obtain ⟨hlength, hzip⟩ := Except.mapM_eq_ok hown
    rw [← List.zipIdx_map_fst 0 route, ← @List.map_fst_zip _ _ _ own (Nat.le_of_eq hlength)] at hr
    obtain ⟨r', hr', rfl⟩ := List.mem_map.mp hr
    obtain ⟨p, hp, rfl⟩ := List.mem_map.mp hr'
    exact exists_routeLimiter.mp ⟨p.2, hzip p hp⟩
  · intro h
    obtain ⟨own, hown⟩ := Except.exists_mapM_eq_ok (l := route.zipIdx)
      (f := fun r => limits.routeLimiter nsid r.1 r.2) fun r hr =>
        exists_routeLimiter.mpr (h r.1 (List.fst_mem_of_mem_zipIdx hr))
    exact ⟨_, by rw [forRoute, hown]; rfl⟩

/-! ### Requests -/

/-- The keys of a limiter whose key function gives a key. -/
theorem Limiter.key_calcKey (limiter : Limiter Auth)
    (calcKey : RateLimitContext Auth → Option Bytes) (ctx : RateLimitContext Auth) :
  { limiter with calcKey := some calcKey }.key ctx
    = .ok ((calcKey ctx).map limiter.storeKey)
  := rfl

/-- Some request is for each route. -/
theorem Slots.exists_kindOf {slots : Slots Auth} (h : slots.get kind = some route) :
  ∃ method isWebsocketUpgrade, slots.kindOf method isWebsocketUpgrade = some kind
  := by
  cases kind with
  | query =>
      have hquery : slots.query = some route := h
      refine ⟨.get, false, ?_⟩
      rw [kindOf, if_pos (.inl rfl), hquery]
      cases slots.subscription <;> rfl
  | procedure =>
      have hprocedure : slots.procedure = some route := h
      refine ⟨.post, false, ?_⟩
      rw [kindOf, if_neg (by decide), if_pos rfl, hprocedure]
      rfl
  | subscription =>
      have hsubscription : slots.subscription = some route := h
      refine ⟨.get, true, ?_⟩
      rw [kindOf, if_pos (.inl rfl), hsubscription]
      cases slots.query <;> rfl

namespace Server

variable {server : Server Auth}

variable {id id' : LimitId}

/-- A request is charged for definitions that are used, under keys that start as they say. -/
theorem Charges.uses {req : Dispatched} {limiter : Limiter Auth}
    (h : server.Charges req id limiter) :
  server.Uses id ∧ limiter.keyPrefix = id.text
  := by
  obtain ⟨limiters, hlimiters, hmem⟩ := h
  rw [Server.limiters] at hlimiters
  rw [Server.limitIds] at hmem
  cases hnsid : parseXrpcPath req.path with
  | none =>
      rw [hnsid] at hlimiters
      cases hlimiters
  | some nsid =>
      rw [hnsid] at hlimiters hmem
      dsimp only at hlimiters hmem
      have hglobal : limiters = server.rateLimits.globalLimiters →
          (id, limiter) ∈ (server.rateLimits.global.map fun g =>
            LimitId.named .global g.name).zip limiters →
          server.Uses id ∧ limiter.keyPrefix = id.text := by
        rintro rfl hmem
        obtain ⟨g, hg, rfl, rfl⟩ := RateLimits.mem_zip_globalLimiters.mp hmem
        exact ⟨.global hg, rfl⟩
      cases hkind : (server.routes nsid).kindOf req.method req.isWebsocketUpgrade with
      | none =>
          rw [hkind] at hlimiters hmem
          cases hlimiters
          exact hglobal rfl hmem
      | some kind =>
          rw [hkind, Option.bind_some] at hlimiters
          rw [hkind] at hmem
          dsimp only at hmem
          cases hroute : (server.routes nsid).get kind with
          | none =>
              rw [hroute] at hlimiters hmem
              cases hlimiters
              exact hglobal rfl hmem
          | some route =>
              rw [hroute] at hlimiters hmem
              dsimp only at hlimiters hmem
              obtain ⟨hid, hprefix⟩ :=
                (RateLimits.mem_zip_forRoute hlimiters kind).1 id limiter hmem
              refine ⟨?_, hprefix⟩
              rcases hid with ⟨r, hr, rfl⟩ | ⟨g, hg, rfl⟩
              · exact .route (isXrpcNsid_of_parseXrpcPath hnsid) hroute
                  (RateLimits.exists_forRoute.mp ⟨limiters, hlimiters⟩) hr
              · exact .global hg

/-- Some request is charged for each definition that is used. -/
theorem Uses.charges (h : server.Uses id) :
  ∃ req limiter, server.Charges req id limiter
  := by
  cases h with
  | @global g hg =>
      refine ⟨⟨ascii "/xrpc/" ++ ascii "aa", .other, false⟩,
        ⟨ascii "rl-" ++ g.name, g.duration, g.points, g.calcKey, g.calcPoints, g.failClosed⟩,
        server.rateLimits.globalLimiters, ?_, ?_⟩
      · rw [Server.limiters, parseXrpcPath_append (by decide)]
        rfl
      · rw [Server.limitIds, parseXrpcPath_append (by decide)]
        exact RateLimits.mem_zip_globalLimiters.mpr ⟨g, hg, rfl, rfl⟩
  | @route nsid kind route r i hnsid hroute hknown hr =>
      obtain ⟨limiters, hlimiters⟩ := (@RateLimits.exists_forRoute Auth _ nsid _).mpr hknown
      obtain ⟨limiter, hmem⟩ := (RateLimits.mem_zip_forRoute hlimiters kind).2 (r, i) hr
      obtain ⟨method, isWebsocketUpgrade, hkind⟩ := Slots.exists_kindOf hroute
      refine ⟨⟨ascii "/xrpc/" ++ nsid, method, isWebsocketUpgrade⟩, limiter, limiters, ?_, ?_⟩
      · rw [Server.limiters, parseXrpcPath_append hnsid]
        dsimp only
        rw [hkind, Option.bind_some, hroute]
        exact hlimiters
      · rw [Server.limitIds, parseXrpcPath_append hnsid]
        dsimp only
        rw [hkind]
        dsimp only
        rw [hroute]
        exact hmem

theorem Uses.served (h : server.Uses id) :
  id.Served
  := by
  cases h with
  | global hg => trivial
  | @route nsid kind route r i hnsid hroute hknown hr =>
      rw [RouteRateLimit.id]
      cases r.kind with
      | shared name => trivial
      | own duration points => exact hnsid

/-- Two definitions that meet share a counter. -/
theorem not_countersApart (hid : server.Uses id) (hid' : server.Uses id')
    (hne : id ≠ id') (hmeets : id.Meets id') :
  ¬server.CountersApart
  := by
  intro hapart
  obtain ⟨req, limiter, hcharges⟩ := hid.charges
  obtain ⟨req', limiter', hcharges'⟩ := hid'.charges
  obtain ⟨k, k', heq⟩ := (LimitId.continued_iff hid.served hid'.served).mpr hmeets
  rw [← hcharges.uses.2, ← hcharges'.uses.2] at heq
  let ctx : RateLimitContext Auth := ⟨[], [], none, ⟨[], none⟩, none, none⟩
  exact hapart req req' id id' limiter limiter' hcharges hcharges' hne (fun _ => some k)
    (fun _ => some k') ctx ctx _ _ (limiter.key_calcKey _ ctx) (limiter'.key_calcKey _ ctx) heq

/-- The counters of a server are apart if and only if no two definitions that it uses meet. -/
theorem countersApart_iff (server : Server Auth) :
  server.CountersApart
    ↔ ∀ id id', server.Uses id → server.Uses id' → id ≠ id' → ¬id.Meets id'
  := by
  constructor
  · intro hapart id id' hid hid' hne hmeets
    exact not_countersApart hid hid' hne hmeets hapart
  · intro hmeets req req' id id' limiter limiter' hcharges hcharges' hne calcKey calcKey' ctx ctx'
      key key' hkey hkey' heq
    obtain ⟨hid, hprefix⟩ := hcharges.uses
    obtain ⟨hid', hprefix'⟩ := hcharges'.uses
    apply hmeets id id' hid hid' hne
    rw [← LimitId.continued_iff hid.served hid'.served, ← hprefix, ← hprefix']
    rw [Limiter.key_calcKey] at hkey hkey'
    obtain ⟨k, -, hk⟩ := Option.map_eq_some_iff.mp (Except.ok.inj hkey)
    obtain ⟨k', -, hk'⟩ := Option.map_eq_some_iff.mp (Except.ok.inj hkey')
    rw [← hk, ← hk'] at heq
    exact ⟨k, k', heq⟩

/-! ### Shared counters -/

/-- A query and a procedure of one NSID, with a limit of each alone. -/
def bothKinds : Server Unit where
  routes nsid :=
    if nsid = ascii "com.example.sync" then
      ⟨some [RouteRateLimit.new (60 * 10 ^ 9) 10], some [RouteRateLimit.new (60 * 10 ^ 9) 10], none⟩
    else ⟨none, none, none⟩
  rateLimits := ⟨[], [], none⟩

/-- Global limits of which one name continues the other one behind a colon. -/
def colonName : Server Unit where
  routes _ := ⟨none, none, none⟩
  rateLimits :=
    ⟨[RateLimit.new (ascii "ip") (60 * 10 ^ 9) 10, RateLimit.new (ascii "ip:burst") (10 ^ 9) 2], [],
      none⟩

/-- The limits that two routes have alone share a counter, and so do limits of different names. -/
theorem counters_shared :
  ¬bothKinds.CountersApart ∧ ¬colonName.CountersApart
  := by
  constructor
  · have hnsid : isXrpcNsid (ascii "com.example.sync") = true := by decide
    have huses : ∀ kind, (bothKinds.routes (ascii "com.example.sync")).get kind
          = some [RouteRateLimit.new (60 * 10 ^ 9) 10] →
        bothKinds.Uses (.own (ascii "com.example.sync") kind 0) := by
      intro kind hroute
      apply Uses.route hnsid hroute _ (List.mem_singleton.mpr rfl)
      intro r hr name hshared
      rw [List.mem_singleton.mp hr] at hshared
      cases hshared
    exact not_countersApart (huses .query rfl) (huses .procedure rfl) (by decide) ⟨rfl, rfl⟩
  · have hip : colonName.Uses (.named .global (ascii "ip")) :=
      .global (g := RateLimit.new (ascii "ip") (60 * 10 ^ 9) 10) List.mem_cons_self
    have hburst : colonName.Uses (.named .global (ascii "ip:burst")) :=
      .global (g := RateLimit.new (ascii "ip:burst") (10 ^ 9) 2)
        (List.mem_cons_of_mem _ List.mem_cons_self)
    exact not_countersApart hip hburst (by decide) (.inl ⟨ascii "burst:", by decide⟩)

end Server

end Shrike.Xrpc
