import N8n.Common.JsString
import Mathlib.Data.List.Forall2
import Mathlib.Data.List.Infix
import Mathlib.Data.List.MinMax

/-!
# Dynamic webhooks

A webhook can be registered under a template with variables, such as `user/:id/posts`. The templates
that may serve a request are those with its number of segments, and one is chosen by its static
segments: they have to be among the segments of the request, wherever they stand. The values of the
variables are read by position.

## Main definitions

* `WebhookEntity`, `createWebhook`: the rows, with the number of segments of a template
* `findDynamicWebhook`, `findDynamicTriggerWebhooks`: the two lookups
* `Matches`: each static segment stands at its position in the request
* `RoutesByPosition`: what the lookups are for

## Main results

* `pickMatchingTemplate_eq`: the loop takes the first template with the most static segments among
  those whose static segments occur in the request
* `routesByPosition_iff`: exactly when the lookups go by position
* `not_routesByPosition`: a request with the segments of a template in another order
-/

namespace N8n.Webhooks

/-! ## Rows -/

inductive IHttpRequestMethods
  | delete
  | get
  | patch
  | post
  | put
  | propfind
  | mkcol
  | move
  | copy
  | report
  | head
  deriving DecidableEq

def IHttpRequestMethods.name : IHttpRequestMethods → String
  | delete => "DELETE"
  | get => "GET"
  | patch => "PATCH"
  | post => "POST"
  | put => "PUT"
  | propfind => "PROPFIND"
  | mkcol => "MKCOL"
  | move => "MOVE"
  | copy => "COPY"
  | report => "REPORT"
  | head => "HEAD"

/-- `path.split('/')`. -/
def splitPath (path : JsString) : List JsString := path.splitOn (ascii '/')

/-- A segment that starts with a colon. -/
def isVariable (segment : JsString) : Bool := segment.head? == some (ascii ':')

/-- A registered webhook. The number of segments is kept for a dynamic path. -/
structure WebhookEntity where
  workflowId : String
  webhookPath : JsString
  method : IHttpRequestMethods
  node : String
  webhookId : Option JsString
  pathLength : Option ℕ
  pathLength_eq : ∀ n ∈ pathLength, n = (splitPath webhookPath).length
  deriving DecidableEq

def WebhookEntity.staticSegments (webhook : WebhookEntity) : List JsString :=
  (splitPath webhook.webhookPath).filter fun segment => !isVariable segment

def normalizeWebhookPath (path : JsString) : JsString :=
  let normalizedPath := trim path
  let normalizedPath :=
    if normalizedPath.head? = some (ascii '/') then normalizedPath.drop 1 else normalizedPath
  if normalizedPath.getLast? = some (ascii '/') then normalizedPath.dropLast else normalizedPath

def isDynamicWebhookPath (path : JsString) : Bool :=
  path.head? == some (ascii ':') || decide ([ascii '/', ascii ':'] <:+: path)

def createWebhook (workflowId : String) (path : JsString) (method : IHttpRequestMethods)
    (node : String) (nodeWebhookId : Option JsString) : WebhookEntity :=
  let webhookPath := normalizeWebhookPath path
  match nodeWebhookId with
  | some webhookId =>
    -- an empty identifier is none
    if isDynamicWebhookPath webhookPath ∧ webhookId ≠ [] then
      { workflowId, webhookPath, method, node, webhookId := some webhookId,
        pathLength := some (splitPath webhookPath).length, pathLength_eq := by simp }
    else
      { workflowId, webhookPath, method, node, webhookId := none, pathLength := none,
        pathLength_eq := by simp }
  | none =>
    { workflowId, webhookPath, method, node, webhookId := none, pathLength := none,
      pathLength_eq := by simp }

/-! ## The lookups -/

/-- `findBy({ webhookId, method, pathLength })`; no method is any method. The rows are in the order
in which the table gives them. -/
def findBy (table : List WebhookEntity) (webhookId : JsString)
    (method : Option IHttpRequestMethods) (pathLength : ℕ) : List WebhookEntity :=
  table.filter fun row => row.webhookId = some webhookId ∧ row.pathLength = some pathLength ∧
    ∀ m ∈ method, row.method = m

structure Best where
  webhook : Option WebhookEntity
  maxMatches : ℕ

/-- All static segments of the template are among the segments of the request. -/
def Occurs (requestSegments : List JsString) (webhook : WebhookEntity) : Prop :=
  ∀ segment ∈ webhook.staticSegments, segment ∈ requestSegments

instance (requestSegments : List JsString) (webhook : WebhookEntity) :
    Decidable (Occurs requestSegments webhook) :=
  inferInstanceAs (Decidable (∀ segment ∈ webhook.staticSegments, segment ∈ requestSegments))

def pickStep (requestSegments : List JsString) (acc : Best) (dw : WebhookEntity) : Best :=
  if Occurs requestSegments dw ∧ dw.staticSegments.length > acc.maxMatches then
    ⟨some dw, dw.staticSegments.length⟩
  -- edge case: if path is `:var`, match on anything
  else if dw.staticSegments.length = 0 ∧ acc.webhook = none then { acc with webhook := some dw }
  else acc

def pickMatchingTemplate (candidates : List WebhookEntity) (requestSegments : List JsString) :
    Option WebhookEntity :=
  (candidates.foldl (pickStep requestSegments) ⟨none, 0⟩).webhook

def candidatesFor (table : List WebhookEntity) (path : JsString)
    (method : Option IHttpRequestMethods) : List WebhookEntity :=
  findBy table ((splitPath path).headD []) method (splitPath path).tail.length

def findDynamicWebhook (table : List WebhookEntity) (path : JsString)
    (method : Option IHttpRequestMethods) : Option WebhookEntity :=
  let dynamicWebhooks := candidatesFor table path method
  if dynamicWebhooks = [] then none
  else pickMatchingTemplate dynamicWebhooks (splitPath path).tail

def rowsOfSameTrigger (webhooks : List WebhookEntity) (row : WebhookEntity) : List WebhookEntity :=
  webhooks.filter fun webhook => webhook.workflowId = row.workflowId ∧ webhook.node = row.node ∧
    webhook.webhookPath = row.webhookPath

def findDynamicTriggerWebhooks (table : List WebhookEntity) (path : JsString)
    (method : Option String) : List WebhookEntity :=
  let candidates := candidatesFor table path none
  let eligible := match method with
    -- an empty method is none
    | some method =>
      if method = "" then candidates else candidates.filter fun dw => dw.method.name = method
    | none => candidates
  match pickMatchingTemplate eligible (splitPath path).tail with
  | some row => rowsOfSameTrigger candidates row
  | none => []

/-! ## What the lookups are for -/

/-- The template has the number of segments of the request, and each of its static segments is the
segment at its position. -/
def Matches (requestSegments : List JsString) (webhook : WebhookEntity) : Prop :=
  List.Forall₂ (fun template segment => isVariable template = false → template = segment)
    (splitPath webhook.webhookPath) requestSegments

/-- A request is routed by position, and the trigger is found by the same template. -/
structure RoutesByPosition (table : List WebhookEntity) (path : JsString)
    (method : IHttpRequestMethods) : Prop where
  matching : ∀ webhook, findDynamicWebhook table path (some method) = some webhook →
    webhook ∈ candidatesFor table path (some method) ∧ Matches (splitPath path).tail webhook
  most_static : ∀ webhook, findDynamicWebhook table path (some method) = some webhook →
    ∀ other ∈ candidatesFor table path (some method), Matches (splitPath path).tail other →
      other.staticSegments.length ≤ webhook.staticSegments.length
  none_iff : findDynamicWebhook table path (some method) = none ↔
    ∀ webhook ∈ candidatesFor table path (some method), ¬ Matches (splitPath path).tail webhook
  same_template : findDynamicTriggerWebhooks table path (some method.name) =
    ((findDynamicWebhook table path (some method)).map
      (rowsOfSameTrigger (candidatesFor table path none))).getD []

/-- The template `other` is preferred: it has more static segments, or as many and comes first. -/
def Preferred (candidates : List WebhookEntity) (other webhook : WebhookEntity) : Prop :=
  webhook.staticSegments.length < other.staticSegments.length ∨
    webhook.staticSegments.length = other.staticSegments.length ∧
      candidates.idxOf other < candidates.idxOf webhook

/-- A template whose static segments occur in the request, but not all in their places, comes after
one that matches. -/
def PrefersPositions (candidates : List WebhookEntity) (requestSegments : List JsString) : Prop :=
  ∀ webhook ∈ candidates, Occurs requestSegments webhook → ¬ Matches requestSegments webhook →
    ∃ other ∈ candidates, Matches requestSegments other ∧
      Preferred (candidates.filter (Occurs requestSegments)) other webhook

/-! ## The choice -/

section Choice

variable {requestSegments : List JsString} {candidates : List WebhookEntity}

/-- The length of the best row so far is kept beside it. -/
theorem foldl_pickStep (requestSegments : List JsString) (candidates : List WebhookEntity) :
    candidates.foldl (pickStep requestSegments) ⟨none, 0⟩ =
      let best := (candidates.filter (Occurs requestSegments)).argmax fun webhook =>
        webhook.staticSegments.length
      ⟨best, (best.map fun webhook => webhook.staticSegments.length).getD 0⟩ := by
  induction candidates using List.reverseRecOn with
  | nil => rfl
  | append_singleton candidates dw ih =>
    rw [List.foldl_append, ih, List.foldl_cons, List.foldl_nil, List.filter_append]
    by_cases hocc : Occurs requestSegments dw
    · rw [List.filter_cons_of_pos (by simpa using hocc), List.filter_nil, List.argmax_concat]
      cases List.argmax (fun webhook : WebhookEntity => webhook.staticSegments.length)
          (candidates.filter (Occurs requestSegments)) with
      | none =>
        by_cases hzero : dw.staticSegments.length = 0
        · simp [pickStep, hzero]
        · simp [pickStep, hocc, Nat.pos_of_ne_zero hzero]
      | some best =>
        by_cases hmore : best.staticSegments.length < dw.staticSegments.length
        · simp [pickStep, hocc, hmore]
        · simp [pickStep, hmore]
    · rw [List.filter_cons_of_neg (by simpa using hocc), List.filter_nil, List.append_nil]
      -- a template without static segments occurs in every request
      have hne : dw.staticSegments.length ≠ 0 := by
        intro hzero
        apply hocc
        intro segment hsegment
        rw [List.length_eq_zero_iff.mp hzero] at hsegment
        cases hsegment
      simp [pickStep, hocc, hne]

/-- **The loop** takes the first of the templates with the most static segments, among those whose
static segments occur in the request. -/
theorem pickMatchingTemplate_eq : pickMatchingTemplate candidates requestSegments =
    (candidates.filter (Occurs requestSegments)).argmax fun webhook =>
      webhook.staticSegments.length := by
  rw [pickMatchingTemplate, foldl_pickStep]

end Choice

/-! ## Where the lookups go by position -/

section Lookups

variable {table : List WebhookEntity} {path : JsString} {method : IHttpRequestMethods}
  {requestSegments : List JsString} {webhook : WebhookEntity}

/-- A template that matches by position has its static segments among those of the request. -/
theorem Matches.occurs (h : Matches requestSegments webhook) : Occurs requestSegments webhook := by
  intro segment hsegment
  obtain ⟨hmem, hstatic⟩ := List.mem_filter.mp hsegment
  obtain ⟨i, hi, rfl⟩ := List.getElem_of_mem hmem
  obtain ⟨hlength, hget⟩ := List.forall₂_iff_get.mp h
  have heq := hget i hi (hlength ▸ hi) (by simpa using hstatic)
  rw [List.get_eq_getElem] at heq
  rw [heq]
  exact List.getElem_mem _

theorem findDynamicWebhook_eq : findDynamicWebhook table path (some method) =
    ((candidatesFor table path (some method)).filter (Occurs (splitPath path).tail)).argmax
      fun webhook => webhook.staticSegments.length := by
  rw [findDynamicWebhook, pickMatchingTemplate_eq]
  split_ifs with hnil
  · rw [hnil]
    rfl
  · rfl

theorem name_injective : Function.Injective IHttpRequestMethods.name := by
  intro a b h
  cases a <;> cases b <;> first | rfl | exact absurd h (by decide)

theorem candidatesFor_some : candidatesFor table path (some method) =
    (candidatesFor table path none).filter fun row => row.method.name = method.name := by
  rw [candidatesFor, candidatesFor, findBy, findBy, List.filter_filter]
  refine List.filter_congr fun row _ => ?_
  simp [name_injective.eq_iff, and_comm, and_assoc]

/-- **Both lookups choose the same template.** -/
theorem findDynamicTriggerWebhooks_eq : findDynamicTriggerWebhooks table path (some method.name) =
    ((findDynamicWebhook table path (some method)).map
      (rowsOfSameTrigger (candidatesFor table path none))).getD [] := by
  have hname : method.name ≠ "" := by cases method <;> decide
  rw [findDynamicWebhook_eq, candidatesFor_some, ← pickMatchingTemplate_eq]
  simp only [findDynamicTriggerWebhooks, if_neg hname]
  cases pickMatchingTemplate _ (splitPath path).tail <;> rfl

/-- **The lookups go by position** exactly if each template whose static segments occur in the
request, but not all in their places, comes after a template that matches. -/
theorem routesByPosition_iff (table : List WebhookEntity) (path : JsString)
    (method : IHttpRequestMethods) : RoutesByPosition table path method ↔
      PrefersPositions (candidatesFor table path (some method)) (splitPath path).tail := by
  have hfound := @findDynamicWebhook_eq table path method
  set candidates := candidatesFor table path (some method)
  set occurring := candidates.filter (Occurs (splitPath path).tail) with hoccurring
  have hmem : ∀ w, w ∈ occurring ↔ w ∈ candidates ∧ Occurs (splitPath path).tail w := by
    intro w
    rw [hoccurring, List.mem_filter, decide_eq_true_iff]
  constructor
  · intro h webhook hwebhook hocc hnot
    -- something is found, since the template occurs
    have hin : webhook ∈ occurring := (hmem webhook).mpr ⟨hwebhook, hocc⟩
    cases hbest : findDynamicWebhook table path (some method) with
    | none =>
      rw [hfound, List.argmax_eq_none] at hbest
      rw [hbest] at hin
      cases hin
    | some best =>
      obtain ⟨hcandidate, hmatches⟩ := h.matching best hbest
      rw [hfound, List.argmax_eq_some_iff] at hbest
      obtain ⟨-, hmost, hfirst⟩ := hbest
      refine ⟨best, hcandidate, hmatches, ?_⟩
      rcases (hmost webhook hin).lt_or_eq with hlt | heq
      · exact .inl hlt
      · refine .inr ⟨heq, (hfirst webhook hin heq.ge).lt_of_ne fun hidx => hnot ?_⟩
        have hsame := List.idxOf_inj ((hmem best).mpr ⟨hcandidate, hmatches.occurs⟩) |>.mp hidx
        exact hsame ▸ hmatches
  · intro h
    have hbest : ∀ best, findDynamicWebhook table path (some method) = some best →
        best ∈ candidates ∧ Matches (splitPath path).tail best := by
      intro best hbest
      rw [hfound, List.argmax_eq_some_iff] at hbest
      obtain ⟨hin, hmost, hfirst⟩ := hbest
      obtain ⟨hcandidate, hocc⟩ := (hmem best).mp hin
      refine ⟨hcandidate, by_contra fun hnot => ?_⟩
      -- the best one is preferred to all, so none is preferred to it
      obtain ⟨other, hother, hmatches, hlt | ⟨heq, hidx⟩⟩ := h best hcandidate hocc hnot
      · exact absurd (hmost other ((hmem other).mpr ⟨hother, hmatches.occurs⟩)) hlt.not_ge
      · exact absurd (hfirst other ((hmem other).mpr ⟨hother, hmatches.occurs⟩) heq.le) hidx.not_ge
    refine ⟨hbest, ?_, ?_, findDynamicTriggerWebhooks_eq⟩
    · intro best hbest other hother hmatches
      rw [hfound, List.argmax_eq_some_iff] at hbest
      exact hbest.2.1 other ((hmem other).mpr ⟨hother, hmatches.occurs⟩)
    · constructor
      · intro hnone other hother hmatches
        rw [hfound, List.argmax_eq_none] at hnone
        have hin : other ∈ occurring := (hmem other).mpr ⟨hother, hmatches.occurs⟩
        rw [hnone] at hin
        cases hin
      · intro hnone
        cases hfind : findDynamicWebhook table path (some method) with
        | none => rfl
        | some best => exact absurd (hbest best hfind).2 (hnone best (hbest best hfind).1)

end Lookups

/-- The template `user/:id`. -/
def userTemplate : WebhookEntity :=
  createWebhook "wf" (js "user/:id".toList) .get "Webhook" (some (js "id".toList))

/-- The request `5/user` is routed to `user/:id`. -/
theorem not_routesByPosition :
    ¬ RoutesByPosition [userTemplate] (js "id/5/user".toList) .get := by
  intro h
  have hrequest : (splitPath (js "id/5/user".toList)).tail = [js ['5'], js "user".toList] := by
    decide +kernel
  have htemplate : splitPath userTemplate.webhookPath = [js "user".toList, js ":id".toList] := by
    decide +kernel
  have hfound : findDynamicWebhook [userTemplate] (js "id/5/user".toList) (some .get) =
      some userTemplate := by decide +kernel
  have hmatches := (h.matching userTemplate hfound).2
  rw [Matches, hrequest, htemplate, List.forall₂_cons] at hmatches
  exact absurd (hmatches.1 (by decide)) (by decide)

end N8n.Webhooks
