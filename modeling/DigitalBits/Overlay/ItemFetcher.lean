import DigitalBits.Scp.Types
import Mathlib.Data.List.Sort
import Mathlib.Data.Set.Insert

/-!
# The item fetcher

`ItemFetcher` keeps a `Tracker` for every item that envelopes wait for. A tracker asks one peer
after another, with a timer for the next attempt. A tracker that nobody waits for stays in the
map with its timer cancelled: an envelope that joins it later does not start it again, and a late
answer of the peer that was asked last does.
-/
namespace DigitalBits.Overlay
open Scp

/-- A peer, as the pointer to it. -/
abbrev PeerPointer := ℕ

/-- What a tracker reads of the overlay when it looks for a peer, and the random number it draws.
The lists are those of the maps of authenticated peers, in the order of the keys. -/
structure OverlayManager where
  isAuthenticated : PeerPointer → Bool
  getPeerID : PeerPointer → NodeID
  getPing : PeerPointer → ℤ
  getPeersKnows : Hash → List PeerPointer
  getInboundAuthenticatedPeers : List PeerPointer
  getOutboundAuthenticatedPeers : List PeerPointer
  rand : ℕ

/-- The slot of an envelope. -/
def slotIndexOf : AnyEnvelope → Uint64
  | .ballot e => e.statement.slotIndex
  | .nominate e => e.statement.slotIndex

def msToWaitForFetchReply : ℕ := 1500
def maxRebuildFetchList : ℕ := 10

/-- `Tracker`. A timer is the wait it was armed with while it is pending. -/
structure Tracker where
  mLastAskedPeer : Option PeerPointer
  mNumListRebuild : ℕ
  mPeersAsked : PeerPointer → Option Bool
  mTimer : Option ℕ
  mWaitingEnvelopes : List (Hash × AnyEnvelope)
  mLastSeenSlotIndex : Uint64

variable (overlay : OverlayManager) (t : Tracker) (xdrBlake2 : AnyEnvelope → Hash)

namespace Tracker

/-- The constructor. -/
def new : Tracker := ⟨none, 0, fun _ => none, none, [], 0⟩

def empty : Bool := t.mWaitingEnvelopes.isEmpty

def canAskPeer (mPeersAsked : PeerPointer → Option Bool)
    (p : PeerPointer) (peerHas : Bool) : Bool :=
  overlay.isAuthenticated p &&
    match mPeersAsked p with
    | none => true
    | some had => peerHas && !had

/-- The loop of `procPeers` over the candidates and the best group of latencies so far. -/
def procPeers (overlay : OverlayManager) (mPeersAsked : PeerPointer → Option Bool)
    (peersHave : Bool) : List PeerPointer → List PeerPointer × ℤ → List PeerPointer × ℤ
  | [], found => found
  | p :: peers, (candidates, curBest) =>
    procPeers overlay mPeersAsked peersHave peers <|
      if canAskPeer overlay mPeersAsked p peersHave then
        let plat := (overlay.getPing p).tdiv (msToWaitForFetchReply / 3)
        if plat < curBest then ([p], plat)
        else if curBest = plat then (candidates ++ [p], curBest)
        else (candidates, curBest)
      else (candidates, curBest)

/-- `newPeersWithEnvelope.emplace`: the first peer of an identity stays. -/
def emplace (peers : List PeerPointer) (p : PeerPointer) : List PeerPointer :=
  if peers.any fun q => overlay.getPeerID q = overlay.getPeerID p then peers
  else peers.orderedInsert (fun a b => overlay.getPeerID a ≤ overlay.getPeerID b) p

/-- The peers that know one of the envelopes and can be asked. -/
def newPeersWithEnvelope : List PeerPointer :=
  (t.mWaitingEnvelopes.flatMap fun e => overlay.getPeersKnows e.1).foldl
    (fun peers p => if canAskPeer overlay t.mPeersAsked p true then emplace overlay peers p else peers)
    []

/-- `INT64_MAX`, the best latency before any candidate. -/
def noLatency : ℤ := 2 ^ 63 - 1

/-- The peer to ask next, and whether it knows an envelope. -/
def selectPeer : Option PeerPointer × Bool :=
  let newPeers := newPeersWithEnvelope overlay t
  let peerWithEnvelopeSelected := !newPeers.isEmpty
  let candidates :=
    if peerWithEnvelopeSelected then
      (procPeers overlay t.mPeersAsked true newPeers ([], noLatency)).1
    else
      (procPeers overlay t.mPeersAsked false overlay.getOutboundAuthenticatedPeers
        (procPeers overlay t.mPeersAsked false overlay.getInboundAuthenticatedPeers
          ([], noLatency))).1
  (candidates[overlay.rand % candidates.length]?, peerWithEnvelopeSelected)

/-- `Tracker::tryNextPeer`; the peer that is asked is `mLastAskedPeer`. -/
def tryNextPeer : Tracker :=
  match selectPeer overlay t with
  | (none, _) =>
    let rebuilt := t.mNumListRebuild + 1
    { t with
      mLastAskedPeer := none
      mNumListRebuild := rebuilt
      mPeersAsked := fun _ => none
      mTimer := some (msToWaitForFetchReply * min maxRebuildFetchList rebuilt) }
  | (some p, peerWithEnvelopeSelected) =>
    { t with
      mLastAskedPeer := some p
      mPeersAsked := Function.update t.mPeersAsked p (some peerWithEnvelopeSelected)
      mTimer := some msToWaitForFetchReply }

/-- `Tracker::listen`; `xdrBlake2` is the key of an envelope in the flood map. -/
def listen (env : AnyEnvelope) (t : Tracker) : Tracker :=
  let t := { t with mLastSeenSlotIndex := max (slotIndexOf env) t.mLastSeenSlotIndex }
  if t.mWaitingEnvelopes.any fun x => x.2 = env then t
  else { t with mWaitingEnvelopes := t.mWaitingEnvelopes ++ [(xdrBlake2 env, env)] }

def discard (env : AnyEnvelope) (t : Tracker) : Tracker :=
  { t with mWaitingEnvelopes := t.mWaitingEnvelopes.filter fun x => x.2 ≠ env }

def cancel : Tracker :=
  { t with mTimer := none, mLastSeenSlotIndex := 0 }

/-- `Tracker::pop`, without the envelope. -/
def pop : Tracker :=
  { t with mWaitingEnvelopes := t.mWaitingEnvelopes.dropLast }

/-- `Tracker::clearEnvelopesBelow`; `none` where it returns `false` and the tracker is erased,
which cancels the timer. -/
def clearEnvelopesBelow (slotIndex : Uint64) (t : Tracker) : Option Tracker :=
  match t.mWaitingEnvelopes.filter fun x => ¬ slotIndexOf x.2 < slotIndex with
  | [] => none
  | kept => some { t with mWaitingEnvelopes := kept }

end Tracker

structure ItemFetcher where
  mTrackers : Hash → Option Tracker

namespace ItemFetcher

def new : ItemFetcher := ⟨fun _ => none⟩

def setTracker (s : ItemFetcher) (itemHash : Hash) (t : Tracker) : ItemFetcher :=
  { s with mTrackers := Function.update s.mTrackers itemHash (some t) }

@[simp] theorem setTracker_self (s : ItemFetcher) (itemHash : Hash) (t : Tracker) :
    (s.setTracker itemHash t).mTrackers itemHash = some t :=
  Function.update_self ..

theorem setTracker_of_ne (s : ItemFetcher) {itemHash other : Hash} (h : other ≠ itemHash)
    (t : Tracker) : (s.setTracker itemHash t).mTrackers other = s.mTrackers other :=
  Function.update_of_ne h ..

/-- `tryNextPeer` on the tracker of an item. -/
def tryNextPeer (overlay : OverlayManager) (itemHash : Hash) (t : Tracker) (s : ItemFetcher) :
    ItemFetcher :=
  s.setTracker itemHash (t.tryNextPeer overlay)

def fetch (overlay : OverlayManager) (itemHash : Hash)
    (envelope : AnyEnvelope) (s : ItemFetcher) : ItemFetcher :=
  match s.mTrackers itemHash with
  | none => s.tryNextPeer overlay itemHash (Tracker.new.listen xdrBlake2 envelope)
  | some tracker => s.setTracker itemHash (tracker.listen xdrBlake2 envelope)

variable (itemHash : Hash)

def stopFetch (envelope : AnyEnvelope) (s : ItemFetcher) : ItemFetcher :=
  match s.mTrackers itemHash with
  | none => s
  | some tracker =>
    let tracker := tracker.discard envelope
    s.setTracker itemHash (if tracker.empty then tracker.cancel else tracker)

def stopFetchingBelowInternal (slotIndex : Uint64) (s : ItemFetcher) : ItemFetcher :=
  { s with mTrackers := fun itemHash =>
      (s.mTrackers itemHash).bind (·.clearEnvelopesBelow slotIndex) }

def doesntHave (peer : PeerPointer) (s : ItemFetcher) : ItemFetcher :=
  match s.mTrackers itemHash with
  | none => s
  | some tracker =>
    if tracker.mLastAskedPeer = some peer then s.tryNextPeer overlay itemHash tracker else s

/-- The timer of an item goes off, if it is pending. -/
def expire (s : ItemFetcher) : ItemFetcher :=
  match s.mTrackers itemHash with
  | none => s
  | some tracker =>
    match tracker.mTimer with
    | none => s
    | some _ => s.tryNextPeer overlay itemHash { tracker with mTimer := none }

/-- One envelope is taken off the tracker of an item. -/
def pop (itemHash : Hash) (s : ItemFetcher) : ItemFetcher :=
  match s.mTrackers itemHash with
  | none => s
  | some tracker => s.setTracker itemHash tracker.pop

/-- The end of `recv`. -/
def finish (s : ItemFetcher) : ItemFetcher :=
  match s.mTrackers itemHash with
  | none => s
  | some tracker => s.setTracker itemHash tracker.cancel

/-- Every envelope is taken off the tracker of an item. -/
def popAll (s : ItemFetcher) : ItemFetcher :=
  match s.mTrackers itemHash with
  | none => s
  | some tracker => s.setTracker itemHash { tracker with mWaitingEnvelopes := [] }

/-- Nobody waits for the item. -/
def idle (s : ItemFetcher) : Bool :=
  match s.mTrackers itemHash with
  | none => true
  | some tracker => tracker.empty

end ItemFetcher

/-- A call of the herder. `recv` comes with the calls that `recvSCPEnvelope` makes for the
envelopes it is handed, one list for each envelope; for envelopes beyond the list it makes none. -/
inductive HerderCall where
  | fetch (overlay : OverlayManager) (itemHash : Hash) (envelope : AnyEnvelope)
  | stopFetch (itemHash : Hash) (envelope : AnyEnvelope)
  | recv (itemHash : Hash) (handled : List (List HerderCall))

namespace HerderCall
variable (xdrBlake2 : AnyEnvelope → Hash)

mutual

/-- What a call does. -/
def run : HerderCall → ItemFetcher → ItemFetcher
  | .fetch overlay itemHash envelope, s => s.fetch xdrBlake2 overlay itemHash envelope
  | .stopFetch itemHash envelope, s => s.stopFetch itemHash envelope
  | .recv itemHash handled, s => (recvLoop itemHash handled s).finish itemHash

/-- The calls for one envelope. -/
def runAll : List HerderCall → ItemFetcher → ItemFetcher
  | [], s => s
  | c :: calls, s => runAll calls (run c s)

/-- The loop of `ItemFetcher::recv`. -/
def recvLoop (itemHash : Hash) : List (List HerderCall) → ItemFetcher → ItemFetcher
  | [], s => s.popAll itemHash
  | calls :: handled, s =>
    if s.idle itemHash then s else recvLoop itemHash handled (runAll calls (s.pop itemHash))

end

mutual

/-- No `fetch` in a call or in what the herder does within it is for a tracked item that nobody
waits for. -/
def Wanted : HerderCall → ItemFetcher → Prop
  | .fetch _ itemHash _, s => ∀ t, s.mTrackers itemHash = some t → t.mWaitingEnvelopes ≠ []
  | .stopFetch _ _, _ => True
  | .recv itemHash handled, s => LoopWanted itemHash handled s

def AllWanted : List HerderCall → ItemFetcher → Prop
  | [], _ => True
  | c :: calls, s => Wanted c s ∧ AllWanted calls (run xdrBlake2 c s)

def LoopWanted (itemHash : Hash) : List (List HerderCall) → ItemFetcher → Prop
  | [], _ => True
  | calls :: handled, s =>
    s.idle itemHash = false →
      AllWanted calls (s.pop itemHash) ∧
      LoopWanted itemHash handled (runAll xdrBlake2 calls (s.pop itemHash))

end

/-- Induction on the nesting of calls. -/
@[elab_as_elim] theorem induction {P : HerderCall → Prop}
    (fetch : ∀ overlay itemHash envelope, P (.fetch overlay itemHash envelope))
    (stopFetch : ∀ itemHash envelope, P (.stopFetch itemHash envelope))
    (recv : ∀ itemHash handled, (∀ calls ∈ handled, ∀ c ∈ calls, P c) → P (.recv itemHash handled))
    (c : HerderCall) : P c :=
  @HerderCall.rec P (fun handled => ∀ calls ∈ handled, ∀ c ∈ calls, P c)
    (fun calls => ∀ c ∈ calls, P c) fetch stopFetch (fun h handled ih => recv h handled ih)
    (by simp) (fun calls handled hcalls hhandled => by simpa using ⟨hcalls, hhandled⟩)
    (by simp) (fun c calls hc hcalls => by simpa using ⟨hc, hcalls⟩) c

end HerderCall

/-- A call on the item fetcher from the top of the stack. -/
inductive Call where
  | herder (c : HerderCall)
  | doesntHave (overlay : OverlayManager) (itemHash : Hash) (peer : PeerPointer)
  | stopFetchingBelow (slotIndex : Uint64)
  | expire (overlay : OverlayManager) (itemHash : Hash)

namespace Call
variable (xdrBlake2 : AnyEnvelope → Hash)

def run : Call → ItemFetcher → ItemFetcher
  | .herder c, s => c.run xdrBlake2 s
  | .doesntHave overlay itemHash peer, s => s.doesntHave overlay itemHash peer
  | .stopFetchingBelow slotIndex, s => s.stopFetchingBelowInternal slotIndex
  | .expire overlay itemHash, s => s.expire overlay itemHash

/-- No `fetch` is for a tracked item that nobody waits for, and no `doesntHave` comes for such an
item from the peer that was asked last. -/
def Wanted : Call → ItemFetcher → Prop
  | .herder c, s => c.Wanted xdrBlake2 s
  | .doesntHave _ itemHash peer, s => ∀ t, s.mTrackers itemHash = some t →
      t.mLastAskedPeer = some peer → t.mWaitingEnvelopes ≠ []
  | .stopFetchingBelow _, _ => True
  | .expire _ _, _ => True

/-- The state after a sequence of calls. -/
def runs : List Call → ItemFetcher → ItemFetcher
  | [], s => s
  | c :: calls, s => runs calls (c.run xdrBlake2 s)

/-- Each call of a sequence is wanted in the state it is made in. -/
def AllWanted : List Call → ItemFetcher → Prop
  | [], _ => True
  | c :: calls, s => c.Wanted xdrBlake2 s ∧ AllWanted calls (c.run xdrBlake2 s)

end Call

/-! ## Timers and waiting envelopes -/

/-- The timer is pending exactly while an envelope waits. -/
def Tracker.Active : Prop :=
  t.mTimer.isSome = true ↔ t.mWaitingEnvelopes ≠ []

namespace Tracker

theorem tryNextPeer_timer : (t.tryNextPeer overlay).mTimer.isSome = true ∧
      (t.tryNextPeer overlay).mWaitingEnvelopes = t.mWaitingEnvelopes := by
  unfold tryNextPeer
  split
  · exact ⟨rfl, rfl⟩
  · exact ⟨rfl, rfl⟩

theorem listen_timer (env : AnyEnvelope) (t : Tracker) :
    (t.listen xdrBlake2 env).mTimer = t.mTimer ∧
      (t.listen xdrBlake2 env).mWaitingEnvelopes ≠ [] := by
  unfold listen
  dsimp only
  split
  · next hany =>
    refine ⟨rfl, fun hnil => ?_⟩
    rw [hnil] at hany
    cases hany
  · exact ⟨rfl, by simp⟩

theorem active_cancel {t : Tracker} (h : t.mWaitingEnvelopes = []) : t.cancel.Active := by
  simp [Active, cancel, h]

/-- Asking the next peer is right while somebody waits. -/
theorem active_tryNextPeer {t : Tracker}
    (h : t.mWaitingEnvelopes ≠ []) : (t.tryNextPeer overlay).Active := by
  obtain ⟨htimer, hwaiting⟩ := t.tryNextPeer_timer overlay
  rw [Active, hwaiting]
  exact iff_of_true htimer h

end Tracker

namespace ItemFetcher

/-- The trackers of all items outside `busy` are active. -/
def ActiveExcept (busy : Set Hash) (s : ItemFetcher) : Prop :=
  ∀ itemHash ∉ busy, ∀ t, s.mTrackers itemHash = some t → t.Active

variable {busy : Set Hash} {s : ItemFetcher}

variable {itemHash : Hash}

theorem ActiveExcept.setTracker (h : s.ActiveExcept busy) {t : Tracker}
    (ht : itemHash ∉ busy → t.Active) : (s.setTracker itemHash t).ActiveExcept busy := by
  intro other hother t' ht'
  by_cases heq : other = itemHash
  · subst heq
    rw [setTracker_self] at ht'
    cases ht'
    exact ht hother
  · rw [setTracker_of_ne s heq] at ht'
    exact h other hother t' ht'

theorem ActiveExcept.tryNextPeer (h : s.ActiveExcept busy) (overlay : OverlayManager) {t : Tracker}
    (ht : itemHash ∉ busy → t.mWaitingEnvelopes ≠ []) :
    (s.tryNextPeer overlay itemHash t).ActiveExcept busy :=
  h.setTracker fun hbusy => Tracker.active_tryNextPeer overlay (ht hbusy)

/-- A new item is asked for at once; an envelope that joins others finds the timer pending. -/
theorem ActiveExcept.fetch (h : s.ActiveExcept busy) (xdrBlake2 : AnyEnvelope → Hash)
    (overlay : OverlayManager) (envelope : AnyEnvelope)
    (hwanted : ∀ t, s.mTrackers itemHash = some t → t.mWaitingEnvelopes ≠ []) :
    (s.fetch xdrBlake2 overlay itemHash envelope).ActiveExcept busy := by
  unfold ItemFetcher.fetch
  split
  · exact h.tryNextPeer overlay fun _ => (Tracker.new.listen_timer xdrBlake2 envelope).2
  · next t ht =>
    refine h.setTracker fun hbusy => ?_
    obtain ⟨htimer, hwaiting⟩ := t.listen_timer xdrBlake2 envelope
    rw [Tracker.Active, htimer]
    exact iff_of_true ((h itemHash hbusy t ht).mpr (hwanted t ht)) hwaiting

theorem ActiveExcept.stopFetch (h : s.ActiveExcept busy) (itemHash : Hash)
    (envelope : AnyEnvelope) : (s.stopFetch itemHash envelope).ActiveExcept busy := by
  unfold ItemFetcher.stopFetch
  split
  · exact h
  · next t ht =>
    refine h.setTracker fun hbusy => ?_
    split
    · next hempty => exact Tracker.active_cancel (List.isEmpty_iff.mp hempty)
    · next hempty =>
      have hkept : (t.discard envelope).mWaitingEnvelopes ≠ [] := fun hnil =>
        hempty (List.isEmpty_iff.mpr hnil)
      refine iff_of_true ((h itemHash hbusy t ht).mpr fun hnil => hkept ?_) hkept
      rw [Tracker.discard, hnil]
      rfl

theorem ActiveExcept.stopFetchingBelowInternal (h : s.ActiveExcept busy) (slotIndex : Uint64) :
    (s.stopFetchingBelowInternal slotIndex).ActiveExcept busy := by
  intro itemHash hbusy t ht
  obtain ⟨old, hold, hcleared⟩ := Option.bind_eq_some_iff.mp ht
  unfold Tracker.clearEnvelopesBelow at hcleared
  split at hcleared
  · cases hcleared
  · next hkept =>
    cases hcleared
    refine iff_of_true ((h itemHash hbusy old hold).mpr fun hnil => hkept ?_) hkept
    rw [hnil]
    rfl

theorem ActiveExcept.expire (h : s.ActiveExcept busy) (overlay : OverlayManager)
    (hbusy : itemHash ∉ busy) :
    (s.expire overlay itemHash).ActiveExcept busy := by
  unfold ItemFetcher.expire
  split
  · exact h
  · next t ht =>
    split
    · exact h
    · next wait hwait =>
      refine h.tryNextPeer overlay fun _ => (h itemHash hbusy t ht).mp ?_
      rw [hwait]
      rfl

theorem ActiveExcept.doesntHave (h : s.ActiveExcept busy) (overlay : OverlayManager)
    {peer : PeerPointer}
    (hwanted : ∀ t, s.mTrackers itemHash = some t → t.mLastAskedPeer = some peer →
      t.mWaitingEnvelopes ≠ []) :
    (s.doesntHave overlay itemHash peer).ActiveExcept busy := by
  unfold ItemFetcher.doesntHave
  split
  · exact h
  · next t ht =>
    split
    · next hpeer => exact h.tryNextPeer overlay fun _ => hwanted t ht hpeer
    · exact h

theorem ActiveExcept.pop (h : s.ActiveExcept busy) (hbusy : itemHash ∈ busy) :
    (s.pop itemHash).ActiveExcept busy := by
  unfold ItemFetcher.pop
  split
  · exact h
  · exact h.setTracker fun hnot => absurd hbusy hnot

theorem ActiveExcept.popAll (h : s.ActiveExcept busy) (hbusy : itemHash ∈ busy) :
    (s.popAll itemHash).ActiveExcept busy ∧ (s.popAll itemHash).idle itemHash = true := by
  unfold ItemFetcher.popAll
  split
  · next hnone => exact ⟨h, by rw [idle, hnone]⟩
  · refine ⟨h.setTracker fun hnot => absurd hbusy hnot, ?_⟩
    rw [idle, setTracker_self]
    rfl

/-- The item that was received is not asked for any more. -/
theorem ActiveExcept.finish (h : s.ActiveExcept (insert itemHash busy))
    (hidle : s.idle itemHash = true) : (s.finish itemHash).ActiveExcept busy := by
  unfold ItemFetcher.finish
  split
  · next hnone =>
    intro other hother t ht
    refine h other (fun hmem => ?_) t ht
    rcases Set.mem_insert_iff.mp hmem with rfl | hmem
    · rw [hnone] at ht
      cases ht
    · exact hother hmem
  · next t ht =>
    rw [idle, ht] at hidle
    intro other hother t' ht'
    by_cases heq : other = itemHash
    · subst heq
      rw [setTracker_self] at ht'
      cases ht'
      exact Tracker.active_cancel (List.isEmpty_iff.mp hidle)
    · rw [setTracker_of_ne s heq] at ht'
      refine h other (fun hmem => ?_) t' ht'
      rcases Set.mem_insert_iff.mp hmem with hsame | hmem
      · exact heq hsame
      · exact hother hmem

end ItemFetcher

namespace HerderCall
variable {xdrBlake2 : AnyEnvelope → Hash}

/-- A call of the herder keeps the trackers active, with all it does while items are received. -/
theorem run_activeExcept (c : HerderCall) : ∀ {busy : Set Hash} {s : ItemFetcher},
    c.Wanted xdrBlake2 s → s.ActiveExcept busy → (c.run xdrBlake2 s).ActiveExcept busy := by
  induction c using HerderCall.induction with
  | fetch overlay itemHash envelope =>
    intro busy s hwanted h
    exact h.fetch xdrBlake2 overlay envelope hwanted
  | stopFetch itemHash envelope =>
    intro busy s _ h
    exact h.stopFetch itemHash envelope
  | recv itemHash handled ih =>
    have hall : ∀ calls : List HerderCall,
        (∀ c ∈ calls, ∀ {busy : Set Hash} {s : ItemFetcher}, c.Wanted xdrBlake2 s →
          s.ActiveExcept busy → (c.run xdrBlake2 s).ActiveExcept busy) →
        ∀ {busy : Set Hash} {s : ItemFetcher}, AllWanted xdrBlake2 calls s →
          s.ActiveExcept busy → (runAll xdrBlake2 calls s).ActiveExcept busy := by
      intro calls
      induction calls with
      | nil =>
        intro _ busy s _ h
        rwa [runAll]
      | cons c calls ihcalls =>
        intro hcalls busy s hwanted h
        exact ihcalls (fun c hc => hcalls c (List.mem_cons_of_mem _ hc)) hwanted.2
          (hcalls c List.mem_cons_self hwanted.1 h)
    -- the item itself is out of step until the loop has emptied its tracker
    have hloop : ∀ {busy : Set Hash} {s : ItemFetcher}, itemHash ∈ busy →
        LoopWanted xdrBlake2 itemHash handled s → s.ActiveExcept busy →
        (recvLoop xdrBlake2 itemHash handled s).ActiveExcept busy ∧
          (recvLoop xdrBlake2 itemHash handled s).idle itemHash = true := by
      induction handled with
      | nil =>
        intro busy s hbusy _ h
        exact h.popAll hbusy
      | cons calls handled ihhandled =>
        intro busy s hbusy hwanted h
        rw [recvLoop]
        by_cases hidle : s.idle itemHash = true
        · rw [if_pos hidle]
          exact ⟨h, hidle⟩
        · rw [if_neg hidle]
          obtain ⟨hcalls, hrest⟩ := hwanted (Bool.eq_false_of_not_eq_true hidle)
          refine ihhandled (fun calls hmem => ih calls (List.mem_cons_of_mem _ hmem)) hbusy hrest ?_
          exact hall calls (ih calls List.mem_cons_self) hcalls (h.pop hbusy)
    intro busy s hwanted h
    have hinsert : s.ActiveExcept (insert itemHash busy) := fun other hother =>
      h other fun hmem => hother (Set.mem_insert_of_mem _ hmem)
    obtain ⟨hactive, hidle⟩ := hloop (Set.mem_insert _ _) hwanted hinsert
    exact hactive.finish hidle

end HerderCall

namespace Call
variable {xdrBlake2 : AnyEnvelope → Hash}

theorem run_active {c : Call} {s : ItemFetcher} (hwanted : c.Wanted xdrBlake2 s)
    (h : s.ActiveExcept ∅) : (c.run xdrBlake2 s).ActiveExcept ∅ := by
  cases c with
  | herder c => exact c.run_activeExcept hwanted h
  | doesntHave overlay itemHash peer => exact h.doesntHave overlay hwanted
  | stopFetchingBelow slotIndex => exact h.stopFetchingBelowInternal slotIndex
  | expire overlay itemHash => exact h.expire overlay (Set.notMem_empty itemHash)

theorem runs_active {calls : List Call} : ∀ {s : ItemFetcher}, AllWanted xdrBlake2 calls s →
    s.ActiveExcept ∅ → ∀ before, before <+: calls → (runs xdrBlake2 before s).ActiveExcept ∅ := by
  induction calls with
  | nil =>
    intro s _ h before hbefore
    rwa [List.prefix_nil.mp hbefore]
  | cons c calls ih =>
    intro s hwanted h before hbefore
    rcases List.prefix_cons_iff.mp hbefore with rfl | ⟨before, rfl, hrest⟩
    · exact h
    · exact ih hwanted.2 (run_active hwanted.1 h) before hrest

/-- In every run in which no `fetch` and no answer of the peer that was asked last comes for a
tracked item that nobody waits for, between any two calls each tracked item has a pending timer
exactly while an envelope waits for it. -/
theorem fetching_while_waited_for (xdrBlake2 : AnyEnvelope → Hash) {calls : List Call}
    (hwanted : AllWanted xdrBlake2 calls ItemFetcher.new) :
    ∀ before, before <+: calls → ∀ itemHash t,
      (runs xdrBlake2 before ItemFetcher.new).mTrackers itemHash = some t →
      (t.mTimer.isSome = true ↔ t.mWaitingEnvelopes ≠ []) := by
  have hnew : ItemFetcher.new.ActiveExcept ∅ := by
    intro itemHash _ t ht
    cases ht
  intro before hbefore itemHash t ht
  exact runs_active hwanted hnew before hbefore itemHash (Set.notMem_empty itemHash) t ht

/-- One authenticated peer. -/
def onePeer : OverlayManager where
  isAuthenticated _ := true
  getPeerID _ := 0
  getPing _ := 0
  getPeersKnows _ := []
  getInboundAuthenticatedPeers := [7]
  getOutboundAuthenticatedPeers := []
  rand := 0

/-- An envelope of a slot. -/
def envelopeOf (slotIndex : Uint64) : AnyEnvelope :=
  .nominate ⟨⟨0, slotIndex, ⟨0, [], []⟩⟩, []⟩

/-- The theorem at a run: an item is asked for again, a late peer has not got it, then it comes and
its envelope needs another item. -/
theorem fetching_two_items : ∃ t,
    (runs (fun _ => 0) [.herder (.fetch onePeer 5 (envelopeOf 1)), .expire onePeer 5,
      .doesntHave onePeer 5 7, .herder (.recv 5 [[.fetch onePeer 6 (envelopeOf 1)]])]
      ItemFetcher.new).mTrackers 6 = some t ∧
    (t.mTimer.isSome = true ↔ t.mWaitingEnvelopes ≠ []) := by
  have hwanted : AllWanted (fun _ => 0) [.herder (.fetch onePeer 5 (envelopeOf 1)),
      .expire onePeer 5, .doesntHave onePeer 5 7,
      .herder (.recv 5 [[.fetch onePeer 6 (envelopeOf 1)]])] ItemFetcher.new := by
    refine ⟨?_, trivial, ?_, ?_, trivial⟩
    · intro t ht
      cases ht
    · intro t ht _ hnil
      cases ht
      cases hnil
    · intro _
      refine ⟨⟨?_, trivial⟩, trivial⟩
      intro t ht
      cases ht
  exact ⟨_, rfl, fetching_while_waited_for _ hwanted _ (List.prefix_refl _) 6 _ rfl⟩

/-- An envelope that joins a tracker nobody waits for does not start it again. A peer that answers
late does, though nobody waits. -/
theorem stuck_and_restarted :
    (∃ t, (runs (fun _ => 0) [.herder (.fetch onePeer 5 (envelopeOf 1)),
        .herder (.stopFetch 5 (envelopeOf 1)),
        .herder (.fetch onePeer 5 (envelopeOf 2))] ItemFetcher.new).mTrackers 5 = some t ∧
      t.mTimer = none ∧ t.mWaitingEnvelopes = [(0, envelopeOf 2)]) ∧
    (∃ t, (runs (fun _ => 0) [.herder (.fetch onePeer 5 (envelopeOf 1)),
        .herder (.stopFetch 5 (envelopeOf 1)),
        .doesntHave onePeer 5 7] ItemFetcher.new).mTrackers 5 = some t ∧
      t.mTimer = some 1500 ∧ t.mWaitingEnvelopes = []) :=
  ⟨⟨_, rfl, rfl, rfl⟩, ⟨_, rfl, rfl, rfl⟩⟩

end Call

end DigitalBits.Overlay
