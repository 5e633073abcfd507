import DigitalBits.Scp.Types

/-!
# The survey message limiter

`SurveyMessageLimiter` records, for each ledger number and surveyor, the surveyed
nodes whose requests were accepted and whether the response was seen. What it
compares with the limit is the number of surveyors of the ledger, not the number
of requests of the one that asks.
-/
namespace DigitalBits.Overlay
open Scp List Option AList

/-- What the limiter reads of a request or of a response. -/
structure SurveyMessage where
  ledgerNum : Uint32
  surveyorPeerID : NodeID
  surveyedPeerID : NodeID
  deriving DecidableEq

/-- Whether the response of a surveyed node was seen. -/
abbrev SurveyedMap := AList (fun _ : NodeID => Bool)

abbrev SurveyorMap := AList (fun _ : NodeID => SurveyedMap)

abbrev RecordMap := AList (fun _ : Uint32 => SurveyorMap)

/-- The constants of the limiter; `nodeID` is the node that runs it. -/
structure SurveyMessageLimiter where
  mNumLedgersBeforeIgnore : Uint32
  mMaxRequestLimit : ℕ
  nodeID : NodeID

namespace SurveyMessageLimiter
variable (limiter : SurveyMessageLimiter)

/-- The additions are of `uint32`. -/
def surveyLedgerNumValid (curLedgerNum ledgerNum : Uint32) : Bool :=
  decide (ledgerNum + limiter.mNumLedgersBeforeIgnore ≥ curLedgerNum) &&
    decide (ledgerNum ≤ curLedgerNum + 1)

/-- `valid` is what `onSuccessValidation` returns. -/
def addAndValidateRequest (curLedgerNum : Uint32) (request : SurveyMessage) (valid : Bool)
    (mRecordMap : RecordMap) : Bool × RecordMap :=
  if !limiter.surveyLedgerNumValid curLedgerNum request.ledgerNum then (false, mRecordMap)
  else if request.surveyorPeerID = limiter.nodeID then (false, mRecordMap)
  else
    match mRecordMap.lookup request.ledgerNum with
    | none =>
      if !valid then (false, mRecordMap)
      else
        let surveyorMap : SurveyorMap :=
          singleton request.surveyorPeerID (singleton request.surveyedPeerID false)
        (true, mRecordMap.insert request.ledgerNum surveyorMap)
    | some surveyorToSurveyedMap =>
      if surveyorToSurveyedMap.keys.length ≥ limiter.mMaxRequestLimit then (false, mRecordMap)
      else
        match surveyorToSurveyedMap.lookup request.surveyorPeerID with
        | none =>
          if !valid then (false, mRecordMap)
          else
            let surveyedMap : SurveyedMap := singleton request.surveyedPeerID false
            (true, mRecordMap.insert request.ledgerNum
              (surveyorToSurveyedMap.insert request.surveyorPeerID surveyedMap))
        | some surveyedMap =>
          match surveyedMap.lookup request.surveyedPeerID with
          | none =>
            if !valid then (false, mRecordMap)
            else
              (true, mRecordMap.insert request.ledgerNum
                (surveyorToSurveyedMap.insert request.surveyorPeerID
                  (surveyedMap.insert request.surveyedPeerID false)))
          | some _ => (false, mRecordMap)

def recordAndValidateResponse (curLedgerNum : Uint32) (response : SurveyMessage) (valid : Bool)
    (mRecordMap : RecordMap) : Bool × RecordMap :=
  if !limiter.surveyLedgerNumValid curLedgerNum response.ledgerNum then (false, mRecordMap)
  else if response.surveyorPeerID = limiter.nodeID then (valid, mRecordMap)
  else
    match mRecordMap.lookup response.ledgerNum with
    | none => (false, mRecordMap)
    | some surveyorToSurveyedMap =>
      match surveyorToSurveyedMap.lookup response.surveyorPeerID with
      | none => (false, mRecordMap)
      | some surveyedMap =>
        match surveyedMap.lookup response.surveyedPeerID with
        | none => (false, mRecordMap)
        | some true => (false, mRecordMap)
        | some false =>
          if !valid then (false, mRecordMap)
          else
            (true, mRecordMap.insert response.ledgerNum
              (surveyorToSurveyedMap.insert response.surveyorPeerID
                (surveyedMap.insert response.surveyedPeerID true)))

/-- The loop of `clearOldLedgers` over the ledger numbers, in their order. -/
def clearFrom (lastClosedledgerSeq : Uint32) : List Uint32 → RecordMap → RecordMap
  | [], mRecordMap => mRecordMap
  | l :: rest, mRecordMap =>
    if l + limiter.mNumLedgersBeforeIgnore < lastClosedledgerSeq then
      clearFrom lastClosedledgerSeq rest (mRecordMap.erase l)
    else mRecordMap

def clearOldLedgers (lastClosedledgerSeq : Uint32) (mRecordMap : RecordMap) : RecordMap :=
  limiter.clearFrom lastClosedledgerSeq (mRecordMap.keys.mergeSort (· ≤ ·)) mRecordMap

/-! ## What a call does -/

/-- Whether the request was accepted and, if so, whether its response was seen. -/
def seen (m : RecordMap) (msg : SurveyMessage) : Option Bool :=
  ((m.lookup msg.ledgerNum).bind fun s => s.lookup msg.surveyorPeerID).bind fun d =>
    d.lookup msg.surveyedPeerID

/-- The number of surveyors with a record for the ledger. -/
def surveyors (m : RecordMap) (l : Uint32) : ℕ := ((m.lookup l).getD ∅).keys.length

def surveyedBy (m : RecordMap) (l : Uint32) (r : NodeID) : SurveyedMap :=
  (((m.lookup l).getD ∅).lookup r).getD ∅

/-- Write down whether a response was seen. -/
def record (m : RecordMap) (msg : SurveyMessage) (responseSeen : Bool) : RecordMap :=
  m.insert msg.ledgerNum (((m.lookup msg.ledgerNum).getD ∅).insert msg.surveyorPeerID
    ((surveyedBy m msg.ledgerNum msg.surveyorPeerID).insert msg.surveyedPeerID responseSeen))

theorem seen_eq (m : RecordMap) (msg : SurveyMessage) :
    seen m msg = (surveyedBy m msg.ledgerNum msg.surveyorPeerID).lookup msg.surveyedPeerID := by
  unfold seen surveyedBy
  cases hl : m.lookup msg.ledgerNum with
  | none => rfl
  | some s =>
    cases hs : s.lookup msg.surveyorPeerID with
    | none | some d => simp [hs]

/-- The requests that the code accepts. -/
structure Accepts (curLedgerNum : Uint32) (m : RecordMap) (msg : SurveyMessage) (valid : Bool) :
    Prop where
  ledger : limiter.surveyLedgerNumValid curLedgerNum msg.ledgerNum = true
  notSelf : msg.surveyorPeerID ≠ limiter.nodeID
  limit : (m.lookup msg.ledgerNum).isSome = true →
    surveyors m msg.ledgerNum < limiter.mMaxRequestLimit
  unseen : seen m msg = none
  valid : valid = true

variable {limiter} {curLedgerNum : Uint32} {m : RecordMap} {msg : SurveyMessage} {valid : Bool}

theorem addAndValidateRequest_accepts (h : limiter.Accepts curLedgerNum m msg valid) :
    limiter.addAndValidateRequest curLedgerNum msg valid m = (true, record m msg false) := by
  obtain ⟨hledger, hself, hlimit, hunseen, rfl⟩ := h
  unfold addAndValidateRequest record surveyedBy
  rw [hledger, Bool.not_true, if_neg Bool.false_ne_true, if_neg hself]
  cases hl : m.lookup msg.ledgerNum with
  | none => rfl
  | some s =>
    have hlt := hlimit (by rw [hl]; rfl)
    rw [surveyors, hl, getD_some] at hlt
    simp only [getD_some, ge_iff_le, if_neg (not_le.mpr hlt)]
    cases hs : s.lookup msg.surveyorPeerID with
    | none => rfl
    | some d =>
      have hd : d.lookup msg.surveyedPeerID = none := by
        rwa [seen, hl, bind_some, hs, bind_some] at hunseen
      simp only [getD_some, hd]
      rfl

theorem addAndValidateRequest_refuses (h : ¬ limiter.Accepts curLedgerNum m msg valid) :
    limiter.addAndValidateRequest curLedgerNum msg valid m = (false, m) := by
  fun_cases addAndValidateRequest limiter curLedgerNum msg valid m with
  | case1 | case2 | case3 | case5 | case6 | case8 | case10 => rfl
  | case4 hledger hself hl hvalid =>
    exact absurd ⟨by simpa using hledger, hself, by simp [hl], by simp [seen, hl],
      by simpa using hvalid⟩ h
  | case7 hledger hself s hl hlimit hs hvalid =>
    exact absurd ⟨by simpa using hledger, hself, by simpa [surveyors, hl] using hlimit,
      by simp [seen, hl, hs], by simpa using hvalid⟩ h
  | case9 hledger hself s hl hlimit d hs hd hvalid =>
    exact absurd ⟨by simpa using hledger, hself, by simpa [surveyors, hl] using hlimit,
      by simp [seen, hl, hs, hd], by simpa using hvalid⟩ h

/-- A response that is not for this node is accepted just once its request was, and marked. -/
theorem recordAndValidateResponse_cases (hself : msg.surveyorPeerID ≠ limiter.nodeID) :
    (limiter.surveyLedgerNumValid curLedgerNum msg.ledgerNum = true ∧ seen m msg = some false ∧
      limiter.recordAndValidateResponse curLedgerNum msg valid m = (true, record m msg true)) ∨
    limiter.recordAndValidateResponse curLedgerNum msg valid m = (false, m) := by
  fun_cases recordAndValidateResponse limiter curLedgerNum msg valid m with
  | case1 | case3 | case4 | case5 | case6 | case7 => exact .inr rfl
  | case2 _ h => exact absurd h hself
  | case8 hledger _ s hl d hs hd =>
    refine .inl ⟨by simpa using hledger, by simp [seen, hl, hs, hd], ?_⟩
    simp [record, surveyedBy, hl, hs]

theorem recordAndValidateResponse_self (hself : msg.surveyorPeerID = limiter.nodeID) :
    (limiter.recordAndValidateResponse curLedgerNum msg valid m).2 = m := by
  unfold recordAndValidateResponse
  split_ifs <;> rfl

theorem surveyedBy_record_self (b : Bool) :
    surveyedBy (record m msg b) msg.ledgerNum msg.surveyorPeerID =
      (surveyedBy m msg.ledgerNum msg.surveyorPeerID).insert msg.surveyedPeerID b := by
  rw [record, surveyedBy, lookup_insert, getD_some, lookup_insert,
    getD_some]

theorem surveyedBy_record_ne (b : Bool) {l : Uint32} {r : NodeID}
    (hne : ¬ (l = msg.ledgerNum ∧ r = msg.surveyorPeerID)) :
    surveyedBy (record m msg b) l r = surveyedBy m l r := by
  unfold surveyedBy record
  by_cases hl : l = msg.ledgerNum
  · have hr : r ≠ msg.surveyorPeerID := fun hr => hne ⟨hl, hr⟩
    rw [hl, lookup_insert, getD_some, lookup_insert_ne hr]
  · rw [lookup_insert_ne hl]

theorem seen_record (b : Bool) (msg' : SurveyMessage) :
    seen (record m msg b) msg' = if msg' = msg then some b else seen m msg' := by
  split_ifs with heq
  · rw [heq, seen_eq, surveyedBy_record_self, lookup_insert]
  · rw [seen_eq, seen_eq]
    by_cases h : msg'.ledgerNum = msg.ledgerNum ∧ msg'.surveyorPeerID = msg.surveyorPeerID
    · have hd : msg'.surveyedPeerID ≠ msg.surveyedPeerID := by
        intro hd
        cases msg'
        cases msg
        exact heq (by simp_all)
      rw [h.1, h.2, surveyedBy_record_self, lookup_insert_ne hd]
    · rw [surveyedBy_record_ne b h]

/-- A ledger number that is too old for this ledger and all later ones. -/
def Expired (limiter : SurveyMessageLimiter) (curLedgerNum l : Uint32) : Prop :=
  l + limiter.mNumLedgersBeforeIgnore < curLedgerNum

theorem Expired.mono {cur' l : Uint32} (h : limiter.Expired curLedgerNum l)
    (hcur : curLedgerNum ≤ cur') : limiter.Expired cur' l := lt_of_lt_of_le h hcur

theorem Expired.not_valid {l : Uint32} (h : limiter.Expired curLedgerNum l) :
    limiter.surveyLedgerNumValid curLedgerNum l = false := by
  rw [surveyLedgerNumValid, Bool.and_eq_false_iff]
  exact .inl (decide_eq_false (not_le.mpr h))

/-- Clearing only erases ledgers that are too old. -/
theorem lookup_clearFrom {seq l : Uint32} (hseq : seq ≤ curLedgerNum)
    (hl : ¬ limiter.Expired curLedgerNum l) (ls : List Uint32) :
    (limiter.clearFrom seq ls m).lookup l = m.lookup l := by
  fun_induction clearFrom limiter seq ls m with
  | case1 | case3 => rfl
  | case2 l' ls m hold ih =>
    have hne : l ≠ l' := by
      rintro rfl
      exact hl (lt_of_lt_of_le hold hseq)
    rw [ih, lookup_erase_ne hne]

/-- Clearing adds nothing. -/
theorem lookup_of_clearFrom {seq l : Uint32} {s : SurveyorMap} {ls : List Uint32}
    (h : (limiter.clearFrom seq ls m).lookup l = some s) : m.lookup l = some s := by
  fun_induction clearFrom limiter seq ls m with
  | case1 | case3 => exact h
  | case2 l' ls m hold ih =>
    have herase := ih h
    by_cases hne : l = l'
    · rw [hne, lookup_erase] at herase
      cases herase
    · rwa [lookup_erase_ne hne] at herase

/-! ## Histories of calls -/

end SurveyMessageLimiter

inductive LimiterCall where
  | request (msg : SurveyMessage) (valid : Bool)
  | response (msg : SurveyMessage) (valid : Bool)
  | clearOldLedgers (lastClosedledgerSeq : Uint32)
  deriving DecidableEq

/-- A call, the current ledger at its time, and what it returned. -/
structure LimiterEvent where
  curLedgerNum : Uint32
  call : LimiterCall
  accepted : Bool
  deriving DecidableEq

namespace SurveyMessageLimiter
variable (limiter : SurveyMessageLimiter)

def run (curLedgerNum : Uint32) (m : RecordMap) : LimiterCall → Bool × RecordMap
  | .request msg valid => limiter.addAndValidateRequest curLedgerNum msg valid m
  | .response msg valid => limiter.recordAndValidateResponse curLedgerNum msg valid m
  | .clearOldLedgers seq => (true, limiter.clearOldLedgers seq m)

/-- The calls so far, the latest first, the current ledger and the records. -/
inductive Reached : List LimiterEvent → Uint32 → RecordMap → Prop
  | start (curLedgerNum : Uint32) : Reached [] curLedgerNum ∅
  | call {h : List LimiterEvent} {cur : Uint32} {m : RecordMap} (hrun : Reached h cur m)
      (cur' : Uint32) (hcur : cur ≤ cur') (call : LimiterCall)
      (hclear : ∀ seq, call = .clearOldLedgers seq → seq ≤ cur') :
      Reached (⟨cur', call, (limiter.run cur' m call).1⟩ :: h) cur' (limiter.run cur' m call).2

end SurveyMessageLimiter

/-- The request that the event accepts. -/
def LimiterEvent.acceptedRequest : LimiterEvent → Option SurveyMessage
  | ⟨_, .request msg _, true⟩ => some msg
  | _ => none

/-- The response to another node that the event accepts. -/
def LimiterEvent.acceptedResponse (nodeID : NodeID) : LimiterEvent → Option SurveyMessage
  | ⟨_, .response msg _, true⟩ => if msg.surveyorPeerID = nodeID then none else some msg
  | _ => none

def acceptedRequests (h : List LimiterEvent) : List SurveyMessage :=
  h.filterMap LimiterEvent.acceptedRequest

def acceptedResponses (nodeID : NodeID) (h : List LimiterEvent) : List SurveyMessage :=
  h.filterMap (LimiterEvent.acceptedResponse nodeID)

/-- How many requests of a surveyor were accepted for a ledger. -/
def acceptedFor (h : List LimiterEvent) (l : Uint32) (r : NodeID) : ℕ :=
  (acceptedRequests h).countP fun msg => decide (msg.ledgerNum = l ∧ msg.surveyorPeerID = r)

namespace SurveyMessageLimiter

/-- The request of the event, if it is of another node, for a ledger that is looked at, and passes
the validation. What became of it does not matter. -/
def ask (limiter : SurveyMessageLimiter) : LimiterEvent → Option SurveyMessage
  | ⟨cur, .request msg true, _⟩ =>
    if limiter.surveyLedgerNumValid cur msg.ledgerNum = true ∧ msg.surveyorPeerID ≠ limiter.nodeID then
      some msg
    else none
  | _ => none

def asked (limiter : SurveyMessageLimiter) (h : List LimiterEvent) : List SurveyMessage :=
  h.filterMap limiter.ask

/-- How many surveyors the messages about the ledger have. -/
def surveyorsIn (q : List SurveyMessage) (l : Uint32) : ℕ :=
  ((q.filter (·.ledgerNum = l)).map SurveyMessage.surveyorPeerID).toFinset.card

/-- How many different messages about the ledger the surveyor has, one for each surveyed node. -/
def messagesOf (q : List SurveyMessage) (l : Uint32) (r : NodeID) : ℕ :=
  (q.filter fun msg => msg.ledgerNum = l ∧ msg.surveyorPeerID = r).toFinset.card

/-- Whenever a surveyor asks for another node: it has asked for as many as the limit allows just if
as many surveyors, and at least one, have asked about the ledger. -/
def EvenlyAsked (limiter : SurveyMessageLimiter) : List LimiterEvent → Prop
  | [] => True
  | e :: h => limiter.EvenlyAsked h ∧ ∀ msg ∈ limiter.ask e, msg ∉ limiter.asked h →
    (limiter.mMaxRequestLimit ≤ messagesOf (limiter.asked h) msg.ledgerNum msg.surveyorPeerID ↔
      max 1 limiter.mMaxRequestLimit ≤ surveyorsIn (limiter.asked h) msg.ledgerNum)

instance decidableEvenlyAsked (limiter : SurveyMessageLimiter) : DecidablePred limiter.EvenlyAsked
  | [] => isTrue trivial
  | _ :: h =>
    have := limiter.decidableEvenlyAsked h
    inferInstanceAs (Decidable (limiter.EvenlyAsked h ∧ _))

variable {limiter : SurveyMessageLimiter} {cur cur' : Uint32} {m : RecordMap}
  {h : List LimiterEvent} {msg : SurveyMessage} {valid : Bool}

/-- What the records say about the history. Ledgers that are too old may be forgotten. -/
structure Recorded (limiter : SurveyMessageLimiter) (h : List LimiterEvent) (cur : Uint32)
    (m : RecordMap) : Prop where
  accepted : ∀ msg, (seen m msg).isSome = true → msg ∈ acceptedRequests h
  requested : ∀ msg ∈ acceptedRequests h,
    (seen m msg).isSome = true ∨ limiter.Expired cur msg.ledgerNum
  answered : ∀ msg ∈ acceptedResponses limiter.nodeID h,
    seen m msg = some true ∨ limiter.Expired cur msg.ledgerNum
  requests_nodup : (acceptedRequests h).Nodup
  responses_nodup : (acceptedResponses limiter.nodeID h).Nodup

theorem Recorded.mono (hrec : limiter.Recorded h cur m) (hcur : cur ≤ cur') :
    limiter.Recorded h cur' m where
  accepted := hrec.accepted
  requested msg hmsg := (hrec.requested msg hmsg).imp_right fun hexp => hexp.mono hcur
  answered msg hmsg := (hrec.answered msg hmsg).imp_right fun hexp => hexp.mono hcur
  requests_nodup := hrec.requests_nodup
  responses_nodup := hrec.responses_nodup

theorem Recorded.cons_none (hrec : limiter.Recorded h cur m) {e : LimiterEvent}
    (hreq : e.acceptedRequest = none) (hres : e.acceptedResponse limiter.nodeID = none) :
    limiter.Recorded (e :: h) cur m := by
  have hreqs : acceptedRequests (e :: h) = acceptedRequests h := by
    rw [acceptedRequests, filterMap_cons_none hreq, acceptedRequests]
  have hress : acceptedResponses limiter.nodeID (e :: h) = acceptedResponses limiter.nodeID h := by
    rw [acceptedResponses, filterMap_cons_none hres, acceptedResponses]
  constructor
  · exact hreqs ▸ hrec.accepted
  · exact hreqs ▸ hrec.requested
  · exact hress ▸ hrec.answered
  · exact hreqs ▸ hrec.requests_nodup
  · exact hress ▸ hrec.responses_nodup

theorem not_expired {l : Uint32} (h : limiter.surveyLedgerNumValid cur l = true) :
    ¬ limiter.Expired cur l := by
  intro hexp
  rw [hexp.not_valid] at h
  cases h

/-- A request that is not seen was never accepted, unless it is too old. -/
theorem Recorded.not_accepted (hrec : limiter.Recorded h cur m) (hseen : seen m msg = none)
    (hledger : limiter.surveyLedgerNumValid cur msg.ledgerNum = true) :
    msg ∉ acceptedRequests h := by
  intro hmem
  rcases hrec.requested msg hmem with hsome | hexp
  · simp [hseen] at hsome
  · exact not_expired hledger hexp

theorem Recorded.request (hrec : limiter.Recorded h cur m)
    (hacc : limiter.Accepts cur m msg valid) :
    limiter.Recorded (⟨cur, .request msg valid, true⟩ :: h) cur (record m msg false) := by
  have hreqs : acceptedRequests (⟨cur, .request msg valid, true⟩ :: h) =
      msg :: acceptedRequests h := rfl
  have hress : acceptedResponses limiter.nodeID (⟨cur, .request msg valid, true⟩ :: h) =
      acceptedResponses limiter.nodeID h := rfl
  have hnew := hrec.not_accepted hacc.unseen hacc.ledger
  refine ⟨fun msg' hsome => ?_, fun msg' hmem => ?_, fun msg' hmem => ?_, ?_, ?_⟩
  · rw [seen_record] at hsome
    rw [hreqs, mem_cons]
    split_ifs at hsome with heq
    · exact .inl heq
    · exact .inr (hrec.accepted msg' hsome)
  · rw [seen_record]
    split_ifs with heq
    · exact .inl rfl
    · rw [hreqs, mem_cons, or_iff_right heq] at hmem
      exact hrec.requested msg' hmem
  · rw [hress] at hmem
    refine (hrec.answered msg' hmem).imp_left fun hsome => ?_
    have heq : msg' ≠ msg := by
      rintro rfl
      simp [hacc.unseen] at hsome
    rwa [seen_record, if_neg heq]
  · exact nodup_cons.mpr ⟨hnew, hrec.requests_nodup⟩
  · exact hrec.responses_nodup

theorem Recorded.response (hrec : limiter.Recorded h cur m)
    (hself : msg.surveyorPeerID ≠ limiter.nodeID)
    (hledger : limiter.surveyLedgerNumValid cur msg.ledgerNum = true)
    (hseen : seen m msg = some false) :
    limiter.Recorded (⟨cur, .response msg valid, true⟩ :: h) cur (record m msg true) := by
  have hreqs : acceptedRequests (⟨cur, .response msg valid, true⟩ :: h) = acceptedRequests h := rfl
  have hress : acceptedResponses limiter.nodeID (⟨cur, .response msg valid, true⟩ :: h) =
      msg :: acceptedResponses limiter.nodeID h := by
    have hsome : LimiterEvent.acceptedResponse limiter.nodeID ⟨cur, .response msg valid, true⟩ =
        some msg := if_neg hself
    rw [acceptedResponses, filterMap_cons_some hsome, acceptedResponses]
  refine ⟨fun msg' hsome => ?_, fun msg' hmem => ?_, fun msg' hmem => ?_, ?_, ?_⟩
  · refine hrec.accepted msg' ?_
    rw [seen_record] at hsome
    split_ifs at hsome with heq
    · simp [heq, hseen]
    · exact hsome
  · rw [seen_record]
    split_ifs
    · exact .inl rfl
    · exact hrec.requested msg' hmem
  · rw [seen_record]
    split_ifs with heq
    · exact .inl rfl
    · rw [hress, mem_cons, or_iff_right heq] at hmem
      exact hrec.answered msg' hmem
  · exact hrec.requests_nodup
  · rw [hress]
    refine nodup_cons.mpr ⟨fun hmem => ?_, hrec.responses_nodup⟩
    rcases hrec.answered msg hmem with hsome | hexp
    · simp [hseen] at hsome
    · exact not_expired hledger hexp

theorem Recorded.clear (hrec : limiter.Recorded h cur m) {seq : Uint32} (hseq : seq ≤ cur) :
    limiter.Recorded h cur (limiter.clearOldLedgers seq m) := by
  have hkeep : ∀ l, ¬ limiter.Expired cur l →
      (limiter.clearOldLedgers seq m).lookup l = m.lookup l :=
    fun l hl => lookup_clearFrom hseq hl _
  have hseen : ∀ msg, ¬ limiter.Expired cur msg.ledgerNum →
      seen (limiter.clearOldLedgers seq m) msg =
        seen m msg := by
    intro msg hl
    rw [seen, hkeep _ hl, seen]
  refine ⟨fun msg hsome => ?_, fun msg hmem => ?_, fun msg hmem => ?_, hrec.requests_nodup,
    hrec.responses_nodup⟩
  · refine hrec.accepted msg ?_
    rw [seen] at hsome ⊢
    cases hl : (limiter.clearOldLedgers seq m).lookup msg.ledgerNum with
    | none => simp [hl] at hsome
    | some s =>
      rw [hl] at hsome
      rwa [lookup_of_clearFrom hl]
  · refine or_iff_not_imp_right.mpr fun hl => ?_
    rw [hseen msg hl]
    exact (hrec.requested msg hmem).resolve_right hl
  · refine or_iff_not_imp_right.mpr fun hl => ?_
    rw [hseen msg hl]
    exact (hrec.answered msg hmem).resolve_right hl

/-- One call keeps the records in step with the history. -/
theorem Recorded.step (hrec : limiter.Recorded h cur m) (call : LimiterCall)
    (hclear : ∀ seq, call = .clearOldLedgers seq → seq ≤ cur) :
    limiter.Recorded (⟨cur, call, (limiter.run cur m call).1⟩ :: h) cur
      (limiter.run cur m call).2 := by
  cases call with
  | request msg valid =>
    by_cases hacc : limiter.Accepts cur m msg valid
    · rw [run, addAndValidateRequest_accepts hacc]
      exact hrec.request hacc
    · rw [run, addAndValidateRequest_refuses hacc]
      exact hrec.cons_none rfl rfl
  | response msg valid =>
    by_cases hself : msg.surveyorPeerID = limiter.nodeID
    · rw [run, recordAndValidateResponse_self hself]
      refine hrec.cons_none rfl ?_
      cases (limiter.recordAndValidateResponse cur msg valid m).1 with
      | false => rfl
      | true => exact if_pos hself
    · rcases recordAndValidateResponse_cases hself with ⟨hledger, hseen, heq⟩ | heq
      · rw [run, heq]
        exact hrec.response hself hledger hseen
      · rw [run, heq]
        exact hrec.cons_none rfl rfl
  | clearOldLedgers seq => exact (hrec.clear (hclear seq rfl)).cons_none rfl rfl

theorem Reached.recorded (hrun : limiter.Reached h cur m) : limiter.Recorded h cur m := by
  induction hrun with
  | start cur =>
    refine ⟨fun msg hsome => ?_, by simp [acceptedRequests], by simp [acceptedResponses],
      nodup_nil, nodup_nil⟩
    cases hsome
  | call hrun cur' hcur call hclear ih => exact (ih.mono hcur).step call hclear

/-! ## What the history satisfies -/

/-- No surveyor has more requests accepted for a ledger than the limit. -/
def Limited (limiter : SurveyMessageLimiter) (h : List LimiterEvent) : Prop :=
  ∀ l r, r ≠ limiter.nodeID → acceptedFor h l r ≤ limiter.mMaxRequestLimit

/-- A new request within the limit of its surveyor is accepted. -/
def NeverCrowdedOut (limiter : SurveyMessageLimiter) (h : List LimiterEvent) : Prop :=
  ∀ later e earlier msg, h = later ++ e :: earlier → e.call = .request msg true →
    limiter.surveyLedgerNumValid e.curLedgerNum msg.ledgerNum = true →
    msg.surveyorPeerID ≠ limiter.nodeID → msg ∉ acceptedRequests earlier →
    acceptedFor earlier msg.ledgerNum msg.surveyorPeerID < limiter.mMaxRequestLimit →
    e.accepted = true

/-- A response to another node is accepted once, after its request. -/
def AnsweredOnce (limiter : SurveyMessageLimiter) (h : List LimiterEvent) : Prop :=
  (acceptedResponses limiter.nodeID h).Nodup ∧
  ∀ later e earlier msg, h = later ++ e :: earlier →
    e.acceptedResponse limiter.nodeID = some msg → msg ∈ acceptedRequests earlier

theorem Reached.answeredOnce (hrun : limiter.Reached h cur m) : limiter.AnsweredOnce h := by
  refine ⟨hrun.recorded.responses_nodup, ?_⟩
  induction hrun with
  | start cur =>
    intro later e earlier msg hsplit
    simp at hsplit
  | @call h cur m hrun cur' hcur call hclear ih =>
    intro later e earlier msg hsplit hres
    cases later with
    | cons e' later => exact ih later e earlier msg (cons.inj hsplit).2 hres
    | nil =>
      obtain ⟨rfl, rfl⟩ := cons.inj hsplit
      cases call with
      | request msg' valid =>
        cases hval : (limiter.run cur' m (.request msg' valid)).1 <;> rw [hval] at hres <;> cases hres
      | clearOldLedgers seq => cases hres
      | response msg' valid =>
        by_cases hself : msg'.surveyorPeerID = limiter.nodeID
        · cases hval : (limiter.run cur' m (.response msg' valid)).1 with
          | false => rw [hval] at hres; cases hres
          | true =>
            rw [hval, LimiterEvent.acceptedResponse, if_pos hself] at hres
            cases hres
        · rcases recordAndValidateResponse_cases hself with ⟨-, hseen, heq⟩ | heq
          · rw [run, heq, LimiterEvent.acceptedResponse, if_neg hself] at hres
            obtain rfl := some.inj hres
            exact hrun.recorded.accepted _ (by rw [hseen]; rfl)
          · rw [run, heq] at hres
            cases hres

/-! ## The limit and the surveyors that are counted -/

/-- What the code compares with the limit. -/
def Full (limiter : SurveyMessageLimiter) (m : RecordMap) (l : Uint32) : Prop :=
  (m.lookup l).isSome = true ∧ limiter.mMaxRequestLimit ≤ surveyors m l

/-- Every new request is accepted just if its surveyor is within the limit. -/
def Held (limiter : SurveyMessageLimiter) : List LimiterEvent → Prop
  | [] => True
  | e :: h => limiter.Held h ∧ ∀ msg ∈ limiter.ask e, msg ∉ acceptedRequests h →
    (e.accepted = true ↔ acceptedFor h msg.ledgerNum msg.surveyorPeerID < limiter.mMaxRequestLimit)

theorem mem_ask {e : LimiterEvent} : msg ∈ limiter.ask e ↔ e.call = .request msg true ∧
    limiter.surveyLedgerNumValid e.curLedgerNum msg.ledgerNum = true ∧
      msg.surveyorPeerID ≠ limiter.nodeID := by
  obtain ⟨cur, call, accepted⟩ := e
  cases call with
  | request msg' valid =>
    cases valid with
    | false => simp [ask]
    | true =>
      simp only [ask, mem_ite_none_right, mem_some_iff, LimiterCall.request.injEq, and_true]
      grind
  | response | clearOldLedgers => simp [ask]

theorem mem_asked_cons {e : LimiterEvent} :
    msg ∈ limiter.asked (e :: h) ↔ msg ∈ limiter.ask e ∨ msg ∈ limiter.asked h := by
  simp [asked, mem_filterMap]

section
variable {q q' : List SurveyMessage} {l : Uint32} {r : NodeID}

theorem surveyorsIn_le (hsub : ∀ msg ∈ q, msg.ledgerNum = l →
    ∃ msg' ∈ q', msg'.ledgerNum = l ∧ msg'.surveyorPeerID = msg.surveyorPeerID) :
    surveyorsIn q l ≤ surveyorsIn q' l := by
  refine Finset.card_le_card fun r hr => ?_
  simp only [List.mem_toFinset, List.mem_map, List.mem_filter, decide_eq_true_eq] at hr ⊢
  obtain ⟨msg, ⟨hmsg, hl⟩, rfl⟩ := hr
  obtain ⟨msg', hmsg', hl', hr'⟩ := hsub msg hmsg hl
  exact ⟨msg', ⟨hmsg', hl'⟩, hr'⟩

theorem messagesOf_le (hsub : ∀ msg ∈ q, msg.ledgerNum = l → msg.surveyorPeerID = r → msg ∈ q') :
    messagesOf q l r ≤ messagesOf q' l r := by
  refine Finset.card_le_card fun msg hmsg => ?_
  simp only [List.mem_toFinset, List.mem_filter, decide_eq_true_eq] at hmsg ⊢
  exact ⟨hsub msg hmsg.1 hmsg.2.1 hmsg.2.2, hmsg.2⟩

theorem acceptedFor_eq (hnodup : (acceptedRequests h).Nodup) :
    acceptedFor h l r = messagesOf (acceptedRequests h) l r := by
  rw [acceptedFor, countP_eq_length_filter, messagesOf, toFinset_card_of_nodup (hnodup.filter _)]

end

/-! ### What is recorded -/

/-- No ledger is recorded without a surveyor, no surveyor without a node. -/
def Tidy (m : RecordMap) : Prop :=
  ∀ l s, m.lookup l = some s → (∃ r, r ∈ s) ∧ ∀ r ∈ s, ∃ d, (seen m ⟨l, r, d⟩).isSome = true

theorem tidy_record (hm : Tidy m) (b : Bool) : Tidy (record m msg b) := by
  have hseen : ∀ msg', (seen m msg').isSome = true →
      (seen (record m msg b) msg').isSome = true := by
    intro msg' hsome
    rw [seen_record]
    split_ifs
    · rfl
    · exact hsome
  intro l s hs
  by_cases hl : l = msg.ledgerNum
  · subst hl
    rw [record, lookup_insert] at hs
    cases hs
    refine ⟨⟨msg.surveyorPeerID, (AList.mem_insert _).mpr (.inl rfl)⟩, fun r hr => ?_⟩
    rcases (AList.mem_insert _).mp hr with rfl | hr
    · exact ⟨msg.surveyedPeerID, by rw [seen_record, if_pos rfl]; rfl⟩
    · cases hm' : m.lookup msg.ledgerNum with
      | none => simp [hm'] at hr
      | some s =>
        rw [hm'] at hr
        obtain ⟨d, hd⟩ := (hm _ _ hm').2 r hr
        exact ⟨d, hseen _ hd⟩
  · rw [record, lookup_insert_ne hl] at hs
    obtain ⟨hr, hd⟩ := hm l s hs
    exact ⟨hr, fun r hr => (hd r hr).imp fun d => hseen _⟩

theorem Reached.tidy (hrun : limiter.Reached h cur m) : Tidy m := by
  induction hrun with
  | start cur => rintro l s ⟨⟩
  | @call h cur m hrun cur' hcur call hclear ih =>
    cases call with
    | request msg valid =>
      by_cases hacc : limiter.Accepts cur' m msg valid
      · rw [run, addAndValidateRequest_accepts hacc]
        exact tidy_record ih _
      · rwa [run, addAndValidateRequest_refuses hacc]
    | response msg valid =>
      by_cases hself : msg.surveyorPeerID = limiter.nodeID
      · rwa [run, recordAndValidateResponse_self hself]
      · rcases recordAndValidateResponse_cases hself with ⟨-, -, heq⟩ | heq
        · rw [run, heq]
          exact tidy_record ih _
        · rwa [run, heq]
    | clearOldLedgers seq =>
      intro l s hs
      have hs' := lookup_of_clearFrom hs
      obtain ⟨hr, hd⟩ := ih l s hs'
      refine ⟨hr, fun r hr => (hd r hr).imp fun d hsome => ?_⟩
      rwa [seen, hs, ← hs']

/-- The surveyors that the code counts are those with an accepted request. -/
theorem Reached.full_iff (hrun : limiter.Reached h cur m) (hcur : cur ≤ cur') {l : Uint32}
    (hl : ¬ limiter.Expired cur' l) :
    limiter.Full m l ↔ max 1 limiter.mMaxRequestLimit ≤ surveyorsIn (acceptedRequests h) l := by
  have hrec := hrun.recorded.mono hcur
  have hmem : ∀ r, r ∈ (m.lookup l).getD ∅ ↔
      ∃ msg ∈ acceptedRequests h, msg.ledgerNum = l ∧ msg.surveyorPeerID = r := by
    intro r
    constructor
    · intro hr
      cases hs : m.lookup l with
      | none => simp [hs] at hr
      | some s =>
        rw [hs] at hr
        obtain ⟨d, hd⟩ := (hrun.tidy l s hs).2 r hr
        exact ⟨_, hrec.accepted _ hd, rfl, rfl⟩
    · rintro ⟨msg, hmsg, rfl, rfl⟩
      have hsome := (hrec.requested msg hmsg).resolve_right hl
      cases hs : m.lookup msg.ledgerNum with
      | none => simp [seen, hs] at hsome
      | some s =>
        rw [seen, hs, bind_some] at hsome
        rw [getD_some, ← AList.lookup_isSome]
        cases hr : s.lookup msg.surveyorPeerID with
        | none => simp [hr] at hsome
        | some d => rfl
  have hcount : surveyors m l = surveyorsIn (acceptedRequests h) l := by
    rw [surveyors, ← toFinset_card_of_nodup (AList.keys_nodup _), surveyorsIn]
    congr 1
    ext r
    rw [List.mem_toFinset, ← AList.mem_keys, hmem]
    simp only [List.mem_toFinset, List.mem_map, List.mem_filter, decide_eq_true_eq, and_assoc]
  have hsome : (m.lookup l).isSome = true ↔ 0 < surveyors m l := by
    rw [surveyors, length_pos_iff_exists_mem]
    cases hs : m.lookup l with
    | none => simp
    | some s =>
      obtain ⟨r, hr⟩ := (hrun.tidy l s hs).1
      exact iff_of_true rfl ⟨r, AList.mem_keys.mp hr⟩
  rw [Full, hsome, hcount]
  omega

section
variable {call : LimiterCall}

/-- Only what is asked is accepted. -/
theorem ask_of_acceptedRequest
    (hmsg : (⟨cur, call, (limiter.run cur m call).1⟩ : LimiterEvent).acceptedRequest = some msg) :
    msg ∈ limiter.ask ⟨cur, call, (limiter.run cur m call).1⟩ ∧ seen m msg = none ∧
      (limiter.run cur m call).1 = true := by
  cases hrun : (limiter.run cur m call).1 with
  | false => rw [hrun] at hmsg; cases call <;> cases hmsg
  | true =>
    rw [hrun] at hmsg
    cases call with
    | response | clearOldLedgers => cases hmsg
    | request msg' valid =>
      obtain rfl := some.inj hmsg
      have hacc : limiter.Accepts cur m msg' valid := by
        by_contra hnot
        rw [run, addAndValidateRequest_refuses hnot] at hrun
        cases hrun
      refine ⟨mem_ask.mpr ⟨?_, hacc.ledger, hacc.notSelf⟩, hacc.unseen, rfl⟩
      rw [hacc.valid]

/-- A new request is refused just if the code finds the limit reached. -/
theorem run_accepted_iff (hrec : limiter.Recorded h cur m)
    (hask : msg ∈ limiter.ask ⟨cur, call, (limiter.run cur m call).1⟩)
    (hnew : msg ∉ acceptedRequests h) :
    (limiter.run cur m call).1 = true ↔ ¬ limiter.Full m msg.ledgerNum := by
  obtain ⟨rfl, hledger, hself⟩ := mem_ask.mp hask
  have hunseen : seen m msg = none := by
    by_contra hsome
    exact hnew (hrec.accepted msg (isSome_iff_ne_none.mpr hsome))
  by_cases hacc : limiter.Accepts cur m msg true
  · rw [run, addAndValidateRequest_accepts hacc]
    exact iff_of_true rfl fun hfull => absurd hfull.2 (not_le.mpr (hacc.limit hfull.1))
  · rw [run, addAndValidateRequest_refuses hacc]
    refine iff_of_false Bool.false_ne_true fun hfull => hacc ⟨hledger, hself, fun hsome => ?_, hunseen, rfl⟩
    exact not_le.mp fun hle => hfull ⟨hsome, hle⟩

end

/-! ### Histories in which the limit is held -/

theorem acceptedFor_cons {e : LimiterEvent} (l : Uint32) (r : NodeID) :
    acceptedFor (e :: h) l r = acceptedFor h l r +
      if ∃ msg, e.acceptedRequest = some msg ∧ msg.ledgerNum = l ∧ msg.surveyorPeerID = r then 1 else 0 := by
  cases he : e.acceptedRequest with
  | none => simp [acceptedFor, acceptedRequests, filterMap_cons_none he]
  | some msg => simp [acceptedFor, acceptedRequests, filterMap_cons_some he, countP_cons]

theorem Reached.limited (hrun : limiter.Reached h cur m) (hheld : limiter.Held h) :
    limiter.Limited h := by
  induction hrun with
  | start cur => exact fun l r _ => Nat.zero_le _
  | @call h cur m hrun cur' hcur call hclear ih =>
    intro l r hr
    have hle := ih hheld.1 l r hr
    rw [acceptedFor_cons]
    split_ifs with hmsg
    · obtain ⟨msg, hmsg, rfl, rfl⟩ := hmsg
      obtain ⟨hask, hunseen, hacc⟩ := ask_of_acceptedRequest hmsg
      have hrec := hrun.recorded.mono hcur
      exact (hheld.2 msg hask (hrec.not_accepted hunseen (mem_ask.mp hask).2.1)).mp hacc
    · exact hle

theorem neverCrowdedOut_of_held (hheld : limiter.Held h) : limiter.NeverCrowdedOut h := by
  induction h with
  | nil =>
    intro later e earlier msg hsplit
    simp at hsplit
  | cons e' h ih =>
    intro later e earlier msg hsplit hcall hledger hself hnew hlt
    cases later with
    | cons e'' later =>
      exact ih hheld.1 later e earlier msg (cons.inj hsplit).2 hcall hledger hself hnew hlt
    | nil =>
      obtain ⟨rfl, rfl⟩ := cons.inj hsplit
      exact (hheld.2 msg (mem_ask.mpr ⟨hcall, hledger, hself⟩) hnew).mpr hlt

theorem Reached.held (hrun : limiter.Reached h cur m) (hlimited : limiter.Limited h)
    (hnever : limiter.NeverCrowdedOut h) : limiter.Held h := by
  induction hrun with
  | start cur => trivial
  | @call h cur m hrun cur' hcur call hclear ih =>
    refine ⟨ih (fun l r hr => ?_) fun later e earlier msg hsplit => ?_, fun msg hask hnew => ?_⟩
    · have hle := hlimited l r hr
      rw [acceptedFor_cons] at hle
      omega
    · exact hnever (_ :: later) e earlier msg (by rw [hsplit]; rfl)
    · obtain ⟨hcall, hledger, hself⟩ := mem_ask.mp hask
      refine ⟨fun hacc => ?_, fun hlt => hnever [] _ h msg rfl hcall hledger hself hnew hlt⟩
      have hle := hlimited msg.ledgerNum msg.surveyorPeerID hself
      obtain rfl : call = .request msg true := hcall
      dsimp only at hacc
      rw [acceptedFor_cons, if_pos ⟨msg, by rw [hacc]; rfl, rfl, rfl⟩] at hle
      omega

/-! ### What has been asked and what has been accepted -/

theorem Reached.asked_of_accepted (hrun : limiter.Reached h cur m) (hmsg : msg ∈ acceptedRequests h) :
    msg ∈ limiter.asked h := by
  induction hrun with
  | start cur => cases hmsg
  | @call h cur m hrun cur' hcur call hclear ih =>
    rw [mem_asked_cons]
    obtain ⟨e, he, hmsg⟩ := mem_filterMap.mp hmsg
    rcases mem_cons.mp he with rfl | he
    · exact .inl (ask_of_acceptedRequest hmsg).1
    · exact .inr (ih (mem_filterMap.mpr ⟨e, he, hmsg⟩))

/-- What was refused found both limits reached, and they still are. -/
theorem Reached.refused (hrun : limiter.Reached h cur m) (hheld : limiter.Held h) :
    ∀ msg ∈ limiter.asked h, msg ∈ acceptedRequests h ∨
      max 1 limiter.mMaxRequestLimit ≤ surveyorsIn (acceptedRequests h) msg.ledgerNum ∧
        limiter.mMaxRequestLimit ≤ acceptedFor h msg.ledgerNum msg.surveyorPeerID := by
  induction hrun with
  | start cur => simp [asked]
  | @call h cur m hrun cur' hcur call hclear ih =>
    intro msg hmsg
    have hgrow : ∀ e : LimiterEvent, ∀ msg ∈ acceptedRequests h, msg ∈ acceptedRequests (e :: h) :=
      fun e => ((sublist_cons_self e h).filterMap _).subset
    have hkeep : ∀ e : LimiterEvent,
        max 1 limiter.mMaxRequestLimit ≤ surveyorsIn (acceptedRequests h) msg.ledgerNum ∧
          limiter.mMaxRequestLimit ≤ acceptedFor h msg.ledgerNum msg.surveyorPeerID →
        max 1 limiter.mMaxRequestLimit ≤ surveyorsIn (acceptedRequests (e :: h)) msg.ledgerNum ∧
          limiter.mMaxRequestLimit ≤ acceptedFor (e :: h) msg.ledgerNum msg.surveyorPeerID := by
      rintro e ⟨hsurveyors, hnodes⟩
      refine ⟨hsurveyors.trans (surveyorsIn_le fun msg' hmsg' hl => ⟨msg', hgrow e _ hmsg', hl, rfl⟩), ?_⟩
      rw [acceptedFor_cons]
      omega
    by_cases hold : msg ∈ acceptedRequests h
    · exact .inl (hgrow _ _ hold)
    rcases mem_asked_cons.mp hmsg with hask | hmsg
    · have hledger := (mem_ask.mp hask).2.1
      have hacc := run_accepted_iff (hrun.recorded.mono hcur) hask hold
      have hlimit := hheld.2 msg hask hold
      dsimp only at hlimit
      rw [hacc, not_iff_comm, not_lt] at hlimit
      by_cases hfull : limiter.Full m msg.ledgerNum
      · exact .inr (hkeep _ ⟨(hrun.full_iff hcur (not_expired hledger)).mp hfull, hlimit.mpr hfull⟩)
      · refine .inl (mem_filterMap.mpr ⟨_, mem_cons_self, ?_⟩)
        obtain rfl : call = .request msg true := (mem_ask.mp hask).1
        rw [hacc.mpr hfull]
        rfl
    · exact .inr (hkeep _ ((ih hheld.1 msg hmsg).resolve_left hold))

theorem Reached.limit_pos (hrun : limiter.Reached h cur m) (hheld : limiter.Held h)
    (hmsg : msg ∈ acceptedRequests h) : 0 < limiter.mMaxRequestLimit := by
  obtain ⟨e, -, hask⟩ := mem_filterMap.mp (hrun.asked_of_accepted hmsg)
  have hfor : 0 < acceptedFor h msg.ledgerNum msg.surveyorPeerID :=
    countP_pos_iff.mpr ⟨msg, hmsg, by simp⟩
  exact hfor.trans_le (hrun.limited hheld _ _ (mem_ask.mp hask).2.2)

/-- Where the limit is held, counting what was asked is counting what was accepted. -/
theorem Reached.asked_counts (hrun : limiter.Reached h cur m) (hheld : limiter.Held h) (l : Uint32)
    (r : NodeID) :
    surveyorsIn (limiter.asked h) l = surveyorsIn (acceptedRequests h) l ∧
      (limiter.mMaxRequestLimit ≤ messagesOf (limiter.asked h) l r ↔
        limiter.mMaxRequestLimit ≤ acceptedFor h l r) := by
  have hsub : ∀ msg ∈ acceptedRequests h, msg ∈ limiter.asked h := fun msg => hrun.asked_of_accepted
  have hrefused := hrun.refused hheld
  rw [acceptedFor_eq hrun.recorded.requests_nodup]
  refine ⟨le_antisymm (surveyorsIn_le fun msg hmsg hl => ?_)
    (surveyorsIn_le fun msg hmsg hl => ⟨msg, hsub msg hmsg, hl, rfl⟩), fun hle => ?_, fun hle =>
    hle.trans (messagesOf_le fun msg hmsg _ _ => hsub msg hmsg)⟩
  · rcases hrefused msg hmsg with hacc | ⟨hsurveyors, hnodes⟩
    · exact ⟨msg, hacc, hl, rfl⟩
    · have hsome : 0 < surveyorsIn (acceptedRequests h) msg.ledgerNum := by omega
      obtain ⟨r, hr⟩ := Finset.card_pos.mp hsome
      obtain ⟨msg₀, hmsg₀, -⟩ := List.mem_map.mp (List.mem_toFinset.mp hr)
      have hpos := hrun.limit_pos hheld (List.mem_filter.mp hmsg₀).1
      obtain ⟨msg', hmsg', hfor⟩ := countP_pos_iff.mp (hpos.trans_le hnodes)
      exact ⟨msg', hmsg', (of_decide_eq_true hfor).1.trans hl, (of_decide_eq_true hfor).2⟩
  · by_contra hlt
    refine hlt (hle.trans (messagesOf_le fun msg hmsg hl hsurveyor => ?_))
    refine (hrefused msg hmsg).resolve_right fun hfull => hlt ?_
    rw [← acceptedFor_eq hrun.recorded.requests_nodup, ← hl, ← hsurveyor]
    exact hfull.2

theorem Reached.held_iff_evenlyAsked (hrun : limiter.Reached h cur m) :
    limiter.Held h ↔ limiter.EvenlyAsked h := by
  induction hrun with
  | start cur => rfl
  | @call h cur m hrun cur' hcur call hclear ih =>
    rw [Held, EvenlyAsked, ← ih]
    refine and_congr_right fun hheld => forall₂_congr fun msg hask => ?_
    obtain ⟨hsurveyors, hnodes⟩ := hrun.asked_counts hheld msg.ledgerNum msg.surveyorPeerID
    have hfull := hrun.full_iff hcur (not_expired (mem_ask.mp hask).2.1)
    rw [hsurveyors, hnodes, ← hfull]
    by_cases hold : msg ∈ acceptedRequests h
    · exact iff_of_true (fun hnew => absurd hold hnew) fun hnew => absurd (hrun.asked_of_accepted hold) hnew
    have hacc := run_accepted_iff (hrun.recorded.mono hcur) hask hold
    dsimp only
    rw [hacc, not_iff_comm, not_lt]
    by_cases hasked : msg ∈ limiter.asked h
    · have hboth := (hrun.refused hheld msg hasked).resolve_left hold
      exact iff_of_true (fun _ => iff_of_true hboth.2 (hfull.mpr hboth.1)) fun hnew => absurd hasked hnew
    · exact ⟨fun himp _ => himp hold, fun himp _ => himp hasked⟩

end SurveyMessageLimiter

open SurveyMessageLimiter

/-- The limit holds for each surveyor by itself just when the requests come in evenly. -/
theorem limits_each_surveyor (limiter : SurveyMessageLimiter) (h : List LimiterEvent) (cur : Uint32)
    (m : RecordMap) (hrun : limiter.Reached h cur m) :
    (limiter.Limited h ∧ (acceptedRequests h).Nodup ∧ limiter.NeverCrowdedOut h ∧
      limiter.AnsweredOnce h) ↔ limiter.EvenlyAsked h := by
  rw [← hrun.held_iff_evenlyAsked]
  constructor
  · rintro ⟨hlimited, -, hnever, -⟩
    exact hrun.held hlimited hnever
  · intro hheld
    exact ⟨hrun.limited hheld, hrun.recorded.requests_nodup, neverCrowdedOut_of_held hheld,
      hrun.answeredOnce⟩

/-- Node 0 with a limit per surveyor. -/
def limiterOf (mMaxRequestLimit : ℕ) : SurveyMessageLimiter := ⟨12, mMaxRequestLimit, 0⟩

/-- Surveyor 9 asks for nodes 1 and 2, surveyor 8 for node 1, and then surveyor 9 for node 3. -/
def twoSurveyors : List LimiterEvent :=
  [⟨7, .request ⟨7, 9, 3⟩ true, false⟩, ⟨7, .request ⟨7, 8, 1⟩ true, true⟩,
    ⟨7, .request ⟨7, 9, 2⟩ true, true⟩, ⟨7, .request ⟨7, 9, 1⟩ true, true⟩]

theorem twoSurveyors_reached : ∃ m, (limiterOf 2).Reached twoSurveyors 7 m :=
  ⟨_, .call (.call (.call (.call (.start 7) 7 le_rfl (.request ⟨7, 9, 1⟩ true) (by simp))
    7 le_rfl (.request ⟨7, 9, 2⟩ true) (by simp)) 7 le_rfl (.request ⟨7, 8, 1⟩ true) (by simp))
    7 le_rfl (.request ⟨7, 9, 3⟩ true) (by simp)⟩

theorem limits_two_surveyors :
    (limiterOf 2).Limited twoSurveyors ∧ (limiterOf 2).NeverCrowdedOut twoSurveyors := by
  obtain ⟨m, hrun⟩ := twoSurveyors_reached
  have heven : (limiterOf 2).EvenlyAsked twoSurveyors := by decide
  obtain ⟨hlimited, -, hnever, -⟩ := (limits_each_surveyor _ _ _ _ hrun).mpr heven
  exact ⟨hlimited, hnever⟩

/-- With a limit of two, surveyor 9 has three requests accepted for one ledger. With a limit of one,
the first request of surveyor 8 is refused because of the one of surveyor 9. -/
theorem surveyors_counted_instead :
    (∃ h cur m, (limiterOf 2).Reached h cur m ∧ acceptedFor h 7 9 = 3) ∧
    (∃ h cur m, (limiterOf 1).Reached h cur m ∧ ¬ (limiterOf 1).NeverCrowdedOut h) := by
  constructor
  · refine ⟨_, _, _, .call (.call (.call (.start 7) 7 le_rfl (.request ⟨7, 9, 1⟩ true) (by simp))
      7 le_rfl (.request ⟨7, 9, 2⟩ true) (by simp)) 7 le_rfl (.request ⟨7, 9, 3⟩ true) (by simp), ?_⟩
    decide
  · refine ⟨_, _, _, .call (.call (.start 7) 7 le_rfl (.request ⟨7, 9, 1⟩ true) (by simp))
      7 le_rfl (.request ⟨7, 8, 1⟩ true) (by simp), fun hnever => ?_⟩
    have haccepted := hnever [] _ _ ⟨7, 8, 1⟩ rfl rfl (by decide) (by decide) (by decide) (by decide)
    exact absurd haccepted (by decide)

end DigitalBits.Overlay
