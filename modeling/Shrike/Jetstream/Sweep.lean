import Mathlib.Data.List.Chain
import Shrike.Jetstream.Planner

/-!
# Snapshot plans

A plan is fetched page by page until its pages reach the sealed tip. The pages that make a complete
plan have the same tip, list segments in order, and tile the sequences after the floor: each
sequence up to the tip is in the window of exactly one page.
-/

namespace Shrike.Jetstream

open Except (bind_eq_ok)

variable {ε : Type}

/-! ### Fetching a plan -/

/-- A complete plan. -/
structure SnapshotPlan where
  sealedTipSeq : ℕ
  afterSeq : ℕ
  beforeSeq : ℕ
  segments : List PlanSegment

/-- The request for a page: whether it is cancelled, and how the server answers it. -/
structure PageRequest (ε : Type) where
  cancelled : Bool
  answer : PlanInput → Except (Error ε) (Option RawPlan)

/-- Request the next page of a sweep, and absorb it. -/
def fetchPage (maxPlanSegments : ℕ) (sweep : PlanSweep) (request : PageRequest ε) :
    Except (Error ε) (PlanPage × PlanSweep) := do
  let page ← planPage request.cancelled maxPlanSegments request.answer sweep.bounds
  let absorbed ← sweep.absorb page
  .ok (page, absorbed)

/-- Request pages until the plan is complete. There is no result as long as another page is to be
requested. -/
def planPages (maxPlanSegments after : ℕ) (sweep : PlanSweep) (segments : List PlanSegment) :
    List (PageRequest ε) → Option (Except (Error ε) SnapshotPlan)
  | [] => none
  | request :: requests =>
      match fetchPage maxPlanSegments sweep request with
      | .error e => some (.error e)
      | .ok (page, absorbed) =>
          if maxPlanSegments < segments.length + page.segments.length then
            some (.error (.planInvalid "planSnapshot returned too many segments"))
          else if absorbed.done then
            some (.ok
              { sealedTipSeq := absorbed.tip.getD 0
                afterSeq := after
                beforeSeq := absorbed.tip.getD 0
                segments := segments ++ page.segments })
          else planPages maxPlanSegments after absorbed (segments ++ page.segments) requests

/-- Fetch the plan for the sequences after `after`, up to `before`. -/
def planSnapshot (maxPlanPages maxPlanSegments after : ℕ) (before : Option ℕ)
    (requests : List (PageRequest ε)) : Option (Except (Error ε) SnapshotPlan) :=
  planPages maxPlanSegments after (PlanSweep.new after before maxPlanPages) [] requests

/-- The pages that are fetched until the coverage of the sweep reaches the tip. -/
def fetchedPages (maxPlanSegments : ℕ) (sweep : PlanSweep) : List (PageRequest ε) → List PlanPage
  | [] => []
  | request :: requests =>
      match fetchPage maxPlanSegments sweep request with
      | .error _ => []
      | .ok (page, absorbed) =>
          page :: if absorbed.done then [] else fetchedPages maxPlanSegments absorbed requests

/-! ### Windows -/

/-- The windows of pages: each begins where the one before it ended, and ends at what its page has
planned. -/
def windows (floor : ℕ) : List PlanPage → List (ℕ × ℕ)
  | [] => []
  | page :: pages =>
      (floor, max floor page.plannedThroughSeq) ::
        windows (max floor page.plannedThroughSeq) pages

/-! ### What is fetched -/

/-- Indices that are absorbed never decrease, and the last of them is kept. -/
theorem absorbIndices_chain {segments : List PlanSegment} :
  ∀ {last last' : Option ℕ},
    (PlanSweep.absorbIndices last segments : Except (Error ε) (Option ℕ)) = .ok last' →
    (last.toList ++ segments.map PlanSegment.index).IsChain (· ≤ ·) ∧
      last' = (last.toList ++ segments.map PlanSegment.index).getLast?
  := by
  induction segments with
  | nil =>
      intro last last' h
      cases h
      cases last with
      | none => exact ⟨.nil, rfl⟩
      | some index => exact ⟨.singleton _, rfl⟩
  | cons segment segments ih =>
      intro last last' h
      rw [PlanSweep.absorbIndices] at h
      split at h
      · cases h
      · rename_i hlast
        obtain ⟨hchain, rfl⟩ := ih h
        cases last with
        | none => exact ⟨hchain, rfl⟩
        | some index =>
            refine ⟨.cons_cons ?_ hchain, List.getLast?_cons_cons.symm⟩
            simpa using hlast

theorem planned_le_of_planPageOf {maxPlanSegments : ℕ} {response : Option RawPlan} {page : PlanPage}
    (h : (planPageOf maxPlanSegments response : Except (Error ε) PlanPage) = .ok page) :
  page.plannedThroughSeq ≤ page.sealedTipSeq
  := by
  cases response with
  | none => cases h
  | some raw =>
      obtain ⟨tip, -, h⟩ := bind_eq_ok.mp h
      obtain ⟨planned, -, h⟩ := bind_eq_ok.mp h
      split at h
      · cases h
      · rename_i hle
        obtain ⟨segments, -, h⟩ := bind_eq_ok.mp h
        cases h
        exact Nat.le_of_not_lt hle

/-- What a page that was fetched does to a sweep. -/
theorem fetchPage_ok {maxPlanSegments : ℕ} {request : PageRequest ε} {sweep absorbed : PlanSweep}
    {page : PlanPage} (h : fetchPage maxPlanSegments sweep request = .ok (page, absorbed)) :
  (sweep.pages + 1 = absorbed.pages ∧ absorbed.pages ≤ sweep.maxPages ∧
      absorbed.maxPages = sweep.maxPages) ∧
    (∀ pinned ∈ sweep.pinnedTip, pinned = page.sealedTipSeq) ∧
    absorbed.pinnedTip = some page.sealedTipSeq ∧
    absorbed.plannedThrough = max sweep.plannedThrough page.plannedThroughSeq ∧
    page.plannedThroughSeq ≤ page.sealedTipSeq ∧
    (page.sealedTipSeq ≤ page.plannedThroughSeq ∨ sweep.plannedThrough < page.plannedThroughSeq) ∧
    (PlanSweep.absorbIndices sweep.lastIndex page.segments : Except (Error ε) (Option ℕ))
      = .ok absorbed.lastIndex
  := by
  obtain ⟨page', hpage, h⟩ := bind_eq_ok.mp h
  obtain ⟨absorbed', habsorb, h⟩ := bind_eq_ok.mp h
  cases h
  obtain ⟨hpinned, htip, hthrough, -⟩ := PlanSweep.absorb_ok habsorb
  have hle : page.plannedThroughSeq ≤ page.sealedTipSeq := by
    rw [planPage] at hpage
    split at hpage
    · cases hpage
    · obtain ⟨input, -, hpage⟩ := bind_eq_ok.mp hpage
      obtain ⟨response, -, hpage⟩ := bind_eq_ok.mp hpage
      exact planned_le_of_planPageOf hpage
  rw [PlanSweep.absorb] at habsorb
  split at habsorb
  · cases habsorb
  · rename_i hpages
    obtain ⟨tip, -, habsorb⟩ := bind_eq_ok.mp habsorb
    obtain ⟨lastIndex, hindices, habsorb⟩ := bind_eq_ok.mp habsorb
    split at habsorb
    · cases habsorb
    · rename_i hplanned
      cases habsorb
      refine ⟨⟨rfl, Nat.le_of_not_lt hpages, rfl⟩, ?_, htip, hthrough, hle, by omega, hindices⟩
      rcases hpinned with hpinned | hpinned <;> simp [hpinned]

/-- What the pages that were fetched are for the plan that is complete with them. -/
structure Completes (maxPlanSegments : ℕ) (sweep : PlanSweep) (segments : List PlanSegment)
    (pages : List PlanPage) (plan : SnapshotPlan) : Prop where
  pinned : ∀ pinned ∈ sweep.pinnedTip, pinned = plan.sealedTipSeq
  sealedTip : ∀ page ∈ pages, page.sealedTipSeq = plan.sealedTipSeq
  covers : ∀ seq, (windows sweep.plannedThrough pages).countP (fun w => w.1 < seq ∧ seq ≤ w.2)
    = if sweep.plannedThrough < seq ∧ seq ≤ max sweep.plannedThrough plan.sealedTipSeq then 1 else 0
  advances : ∀ w ∈ (windows sweep.plannedThrough pages).dropLast, w.1 < w.2
  budget : sweep.pages + pages.length ≤ sweep.maxPages
  ordered : (sweep.lastIndex.toList ++ (pages.flatMap PlanPage.segments).map
    PlanSegment.index).IsChain (· ≤ ·)
  segments : plan.segments = segments ++ pages.flatMap PlanPage.segments
  bound : plan.segments.length ≤ maxPlanSegments

section Completes

variable {maxPlanSegments after : ℕ} {request : PageRequest ε} {sweep absorbed : PlanSweep}
  {segments : List PlanSegment} {page : PlanPage} {pages : List PlanPage} {plan : SnapshotPlan}

/-- A page with which the coverage reaches the tip completes the plan. -/
theorem Completes.last (hfetch : fetchPage maxPlanSegments sweep request = .ok (page, absorbed))
    (hdone : absorbed.done = true) (htip : plan.sealedTipSeq = absorbed.tip.getD 0)
    (hsegments : plan.segments = segments ++ page.segments)
    (hbound : plan.segments.length ≤ maxPlanSegments) :
  Completes maxPlanSegments sweep segments [page] plan
  := by
  obtain ⟨⟨hpages, hle, -⟩, hpinned, hpin, hthrough, hplanned, -, hindices⟩ := fetchPage_ok hfetch
  rw [PlanSweep.tip, hpin, Option.getD_some] at htip
  simp only [PlanSweep.done, hpin, hthrough, Option.any_some, decide_eq_true_eq] at hdone
  refine ⟨by rwa [htip], by simpa using htip.symm, ?_, by simp [windows], hpages.trans_le hle, ?_, ?_,
    hbound⟩
  · intro seq
    rw [windows, windows, htip, show max sweep.plannedThrough page.plannedThroughSeq
      = max sweep.plannedThrough page.sealedTipSeq by omega]
    simp [List.countP_cons]
  · rw [List.flatMap_singleton]
    exact (absorbIndices_chain hindices).1
  · rw [hsegments, List.flatMap_singleton]

/-- A page with which the coverage does not reach the tip is continued by the pages after it. -/
theorem Completes.next (hfetch : fetchPage maxPlanSegments sweep request = .ok (page, absorbed))
    (hdone : ¬absorbed.done = true)
    (h : Completes maxPlanSegments absorbed (segments ++ page.segments) pages plan) :
  Completes maxPlanSegments sweep segments (page :: pages) plan
  := by
  obtain ⟨⟨hpages, -, hmax⟩, hpinned, hpin, hthrough, -, hadvances, hindices⟩ := fetchPage_ok hfetch
  have htip := h.pinned _ hpin
  obtain ⟨hchain, hlast⟩ := absorbIndices_chain hindices
  have hordered := List.isChain_append.mp h.ordered
  have hbudget := h.budget
  simp only [PlanSweep.done, hpin, hthrough, Option.any_some, decide_eq_true_eq] at hdone
  have hlow : sweep.plannedThrough < page.plannedThroughSeq := by omega
  have hnext : absorbed.plannedThrough = page.plannedThroughSeq :=
    hthrough.trans (max_eq_right hlow.le)
  refine ⟨by rwa [← htip], List.forall_mem_cons.mpr ⟨htip, h.sealedTip⟩, ?_, ?_, ?_, ?_, ?_, h.bound⟩
  · intro seq
    have hcovers := h.covers seq
    rw [hnext] at hcovers
    rw [windows, max_eq_right hlow.le, List.countP_cons, hcovers]
    simp only [decide_eq_true_eq]
    split_ifs <;> omega
  · have hadvances := h.advances
    rw [hnext] at hadvances
    rw [windows, max_eq_right hlow.le]
    cases hwindows : windows page.plannedThroughSeq pages with
    | nil => simp
    | cons w ws =>
        rw [hwindows] at hadvances
        exact List.forall_mem_cons.mpr ⟨hlow, hadvances⟩
  · rw [List.length_cons]
    omega
  · rw [List.flatMap_cons, List.map_append, ← List.append_assoc, List.isChain_append]
    refine ⟨hchain, hordered.2.1, fun x hx => hordered.2.2 x ?_⟩
    rw [← hlast, Option.mem_def] at hx
    rw [hx]
    rfl
  · rw [h.segments, List.flatMap_cons, List.append_assoc]

/-- A complete plan is made of the pages that were fetched. -/
theorem completes_of_planPages {requests : List (PageRequest ε)} :
  ∀ {sweep : PlanSweep} {segments : List PlanSegment},
    planPages maxPlanSegments after sweep segments requests = some (.ok plan) →
    Completes maxPlanSegments sweep segments (fetchedPages maxPlanSegments sweep requests) plan
  := by
  induction requests with
  | nil =>
      intro sweep segments h
      cases h
  | cons request requests ih =>
      intro sweep segments h
      rw [planPages] at h
      rw [fetchedPages]
      rcases hfetch : fetchPage maxPlanSegments sweep request with e | ⟨page, absorbed⟩
      · rw [hfetch] at h
        cases h
      · rw [hfetch] at h
        dsimp only at h ⊢
        split_ifs at h with hmany hdone
        · cases h
        · cases h
          rw [if_pos hdone]
          apply Completes.last hfetch hdone rfl rfl
          rw [List.length_append]
          exact Nat.le_of_not_lt hmany
        · rw [if_neg hdone]
          exact (ih h).next hfetch hdone

end Completes

theorem planPages_ends {maxPlanSegments after : ℕ} {requests : List (PageRequest ε)} :
  ∀ {sweep : PlanSweep} {segments : List PlanSegment},
    sweep.pages ≤ sweep.maxPages → sweep.maxPages < sweep.pages + requests.length →
    planPages maxPlanSegments after sweep segments requests ≠ none
  := by
  induction requests with
  | nil =>
      intro sweep segments hpages hlong
      exact absurd hlong (Nat.not_lt.mpr hpages)
  | cons request requests ih =>
      intro sweep segments hpages hlong
      rw [planPages]
      rcases hfetch : fetchPage maxPlanSegments sweep request with e | ⟨page, absorbed⟩
      · exact Option.some_ne_none _
      · obtain ⟨⟨hnext, hle, hmax⟩, -⟩ := fetchPage_ok hfetch
        rw [List.length_cons] at hlong
        dsimp only
        split_ifs
        · exact Option.some_ne_none _
        · exact Option.some_ne_none _
        · apply ih <;> omega

/-- Whatever the server answers, fetching a plan ends after one request more than the page budget
at the latest. The pages of a complete plan have its tip and are within the budget, its segments are
theirs in the order of their indices, and every sequence after the floor up to the tip is in exactly
one of their windows, of which only the last one may be empty. -/
theorem planSnapshot_tiles (maxPlanPages maxPlanSegments after : ℕ) (before : Option ℕ)
    (requests : List (PageRequest ε)) :
  (maxPlanPages < requests.length →
    planSnapshot maxPlanPages maxPlanSegments after before requests ≠ none) ∧
  ∀ plan pages, planSnapshot maxPlanPages maxPlanSegments after before requests = some (.ok plan) →
    pages = fetchedPages maxPlanSegments (PlanSweep.new after before maxPlanPages) requests →
    pages.length ≤ maxPlanPages ∧ (∀ page ∈ pages, page.sealedTipSeq = plan.sealedTipSeq) ∧
      plan.segments = pages.flatMap PlanPage.segments ∧ plan.segments.length ≤ maxPlanSegments ∧
      (plan.segments.map PlanSegment.index).Pairwise (· ≤ ·) ∧
      (∀ seq, (windows after pages).countP (fun w => w.1 < seq ∧ seq ≤ w.2)
        = if after < seq ∧ seq ≤ max after plan.sealedTipSeq then 1 else 0) ∧
      ∀ w ∈ (windows after pages).dropLast, w.1 < w.2
  := by
  constructor
  · intro hlong
    apply planPages_ends (Nat.zero_le _)
    exact hlong.trans_eq (Nat.zero_add _).symm
  · rintro plan pages h rfl
    obtain ⟨-, htip, hcovers, hadvances, hbudget, hordered, hsegments, hbound⟩ :=
      completes_of_planPages h
    rw [List.nil_append] at hsegments
    refine ⟨(Nat.zero_add _).symm.trans_le hbudget, htip, hsegments, hbound, ?_, hcovers, hadvances⟩
    rw [hsegments]
    exact List.isChain_iff_pairwise.mp hordered

/-- A plan of two pages, of which the second one reaches the tip. -/
theorem two_pages_tile :
  (windows 3 [⟨9, 5, []⟩, ⟨9, 9, []⟩]).countP (fun w => w.1 < 6 ∧ 6 ≤ w.2) = 1
  := ((planSnapshot_tiles 2 0 3 none
    ([⟨false, fun _ => .ok (some ⟨9, 5, []⟩)⟩, ⟨false, fun _ => .ok (some ⟨9, 9, []⟩)⟩] :
      List (PageRequest Empty))).2 ⟨9, 3, 9, []⟩ _ rfl rfl).2.2.2.2.2.1 6

end Shrike.Jetstream
