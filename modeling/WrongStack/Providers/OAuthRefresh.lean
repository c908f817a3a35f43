import WrongStack.Lib.JsMap
import WrongStack.Lib.JsString
import WrongStack.Lib.Run

/-!
# Refreshing an OAuth token

`OAuthRefreshCoordinator` and `createSingleFlightRefresh` (`providers/src/oauth-refresh-coordinator.ts`,
`oauth-refresh.ts`) as `OpenAICodexProvider` (`openai-codex.ts`) wires them. The upstream call settles at any time and
in any way; a promise is told apart by a number.
-/

namespace WrongStack.OAuthRefresh

open Lib

structure CodexOAuthTokens where
  access : JsString
  refresh : JsString
  expires : Int
  deriving DecidableEq

structure DerivedTokens where
  accessToken : JsString
  expiresAt : Int
  refreshKey : Option JsString
  deriving DecidableEq

/-- What `onRefresh` is given. -/
structure Payload where
  accessToken : JsString
  refreshToken : JsString
  expiresAt : Int
  accountId : Option JsString
  deriving DecidableEq

inductive Outcome
  | resolved (tokens : CodexOAuthTokens)
  | rejected (error : JsString)
  deriving DecidableEq

structure Options where
  accessToken : JsString
  refreshToken : Option JsString
  accountId : Option JsString := none
  expiresAt : Option Int := none
  refreshSkewMs : Int := 60000
  /-- The host has an `onRefresh`. -/
  persists : Bool := true
  /-- The account in the claims of a token. -/
  extractAccountId : JsString → Option JsString := fun _ => none

/-- What happens, in the words of the contract. -/
inductive Entry
  /-- A caller asks for a refresh. -/
  | arrived (caller : Nat)
  /-- `refreshFn` is called, and its promise settles. -/
  | called (n : Nat) (refreshKey : JsString)
  | settled (n : Nat) (result : Outcome)
  | applied (n : Nat) (derived : DerivedTokens)
  | notified (n : Nat) (payload : Payload)
  /-- The work of the slot has settled, and then the slot is cleared. -/
  | over (n : Nat) (outcome : Outcome)
  | cleared (n : Nat)
  | resolved (caller : Nat) (outcome : Outcome)
  deriving DecidableEq

structure State where
  expiresAt : Option Int
  /-- The promise in the slot. -/
  inFlight : Option Nat := none
  /-- The calls of `refreshFn` that have not settled. -/
  calls : JsMap Nat JsString := .empty
  /-- What has settled before its `finally` has run, and after. -/
  ended : JsMap Nat Outcome := .empty
  promises : JsMap Nat Outcome := .empty
  /-- The promise that a caller awaits. -/
  waiting : JsMap Nat Nat := .empty
  access : JsString
  refresh : Option JsString
  accountId : Option JsString
  nextPromise : Nat := 0
  nextCaller : Nat := 0
  /-- newest first -/
  log : List Entry := []

def start (options : Options) : State where
  expiresAt := options.expiresAt
  access := options.accessToken
  refresh := options.refreshToken
  accountId := options.accountId.or (options.extractAccountId options.accessToken)

/-- A string that is not empty. -/
def truthy (s : Option JsString) : Option JsString := s.filter fun key => !key.isEmpty

variable (options : Options)

/-- `() => opts.initialRefreshKey`, where it is truthy. -/
def getRefreshKey : Option JsString := truthy options.refreshToken

def isStale (s : State) (now : Int) : Bool :=
  match s.expiresAt with
  | none => true
  | some expiresAt => expiresAt - options.refreshSkewMs ≤ now

namespace State

variable (s : State)

/-- The promise of `performRefresh` settles. -/
def settle (n : Nat) (outcome : Outcome) : State :=
  { s with ended := s.ended.set n outcome, log := .over n outcome :: s.log }

/-- `performRefresh` up to its first `await`. -/
def performRefresh (n : Nat) : State :=
  match getRefreshKey options with
  | none => s.settle n (.rejected (js "Codex OAuth: refresh key missing"))
  | some refreshKey => { s with calls := s.calls.set n refreshKey, log := .called n refreshKey :: s.log }

/-- `refresh` of the single-flight slot: the promise that the caller gets. -/
def refreshSlot : State × Nat :=
  match s.inFlight with
  | some n => (s, n)
  | none =>
      let n := s.nextPromise
      ({ s with inFlight := some n, nextPromise := n + 1 }.performRefresh options n, n)

/-- A caller arrives and awaits the slot. -/
def await : State :=
  let c := s.nextCaller
  let r := { s with nextCaller := c + 1, log := .arrived c :: s.log }.refreshSlot options
  { r.1 with waiting := r.1.waiting.set c r.2 }

def runRefresh : State := s.await options

def doRefresh : State :=
  match getRefreshKey options with
  | none => s
  | some _ => s.await options

def ensureFreshToken (now : Int) : State :=
  match getRefreshKey options with
  | none => s
  | some _ => if isStale options s now then s.doRefresh options else s

/-- A 401 in `stream`. -/
def unauthorized : State :=
  match truthy s.refresh with
  | none => s
  | some _ => s.doRefresh options

/-- `applyTokens` -/
def applyTokens (n : Nat) (derived : DerivedTokens) : State :=
  { s with
    access := derived.accessToken
    refresh := derived.refreshKey.or s.refresh
    accountId := (options.extractAccountId derived.accessToken).or s.accountId
    log := .applied n derived :: s.log }

/-- `onRefresh`, if there is one, with the payload of `formatPayload`. -/
def onRefresh (n : Nat) (derived : DerivedTokens) : State :=
  if options.persists then
    { s with log := .notified n ⟨derived.accessToken, derived.refreshKey.getD [], derived.expiresAt, s.accountId⟩ :: s.log }
  else s

/-- The rest of `performRefresh`; `thrown` is what `onRefresh` throws. -/
def settled (n : Nat) (result : Outcome) (thrown : Option JsString) : State :=
  match s.calls.get? n with
  | none => s
  | some _ =>
      let s := { s with calls := s.calls.delete n, log := .settled n result :: s.log }
      match result with
      | .rejected error => s.settle n (.rejected error)
      | .resolved tokens =>
          let derived : DerivedTokens := ⟨tokens.access, tokens.expires, some tokens.refresh⟩
          let s := ({ s with expiresAt := some derived.expiresAt }.applyTokens options n derived).onRefresh options n derived
          match (if options.persists then thrown else none) with
          | some error => s.settle n (.rejected error)
          | none => s.settle n (.resolved tokens)

/-- The callback of `finally`. -/
def cleared (n : Nat) : State :=
  match s.ended.get? n with
  | none => s
  | some outcome =>
      { s with ended := s.ended.delete n, inFlight := none, promises := s.promises.set n outcome,
               log := .cleared n :: s.log }

/-- A caller goes on. -/
def delivered (caller : Nat) : State :=
  match s.waiting.get? caller with
  | none => s
  | some n =>
      match s.promises.get? n with
      | none => s
      | some outcome => { s with waiting := s.waiting.delete caller, log := .resolved caller outcome :: s.log }

end State

inductive Op
  | ensureFreshToken (now : Int)
  | doRefresh
  | runRefresh
  | unauthorized
  | setExpiresAt (expiresAt : Option Int)
  | settled (n : Nat) (result : Outcome) (thrown : Option JsString)
  | cleared (n : Nat)
  | delivered (caller : Nat)
  deriving DecidableEq

def step (s : State) : Op → State
  | .ensureFreshToken now => s.ensureFreshToken options now
  | .doRefresh => s.doRefresh options
  | .runRefresh => s.runRefresh options
  | .unauthorized => s.unauthorized options
  | .setExpiresAt expiresAt => { s with expiresAt := expiresAt }
  | .settled n result thrown => s.settled options n result thrown
  | .cleared n => s.cleared n
  | .delivered caller => s.delivered caller

/-! ## The contract -/

/-- The refresh token of the most recent successful refresh, or the initial one. -/
def liveKey (log : List Entry) : Option JsString :=
  (log.findSome? fun x =>
    match x with
    | .settled _ (.resolved tokens) => some tokens.refresh
    | _ => none).or options.refreshToken

/-- The refresh that is running: its `refreshFn` has been called, and the slot has not been cleared since. -/
def runningIn (log : List Entry) : Option Nat :=
  (log.findSome? fun x =>
    match x with
    | .called n _ => some (some n)
    | .cleared _ => some none
    | _ => none).getD none

/-- What holds of every call of `refreshFn`, its key and what has happened before it. -/
def AtCalls (R : JsString → List Entry → Prop) (log : List Entry) : Prop :=
  ∀ n key earlier, .called n key :: earlier <:+ log → R key earlier

/-- Every call has settled. -/
def Quiet (log : List Entry) : Prop := ∀ n key, .called n key ∈ log → ∃ result, .settled n result ∈ log

def isApplied (n : Nat) : Entry → Bool
  | .applied m _ => m == n
  | _ => false

def isNotified (n : Nat) : Entry → Bool
  | .notified m _ => m == n
  | _ => false

/-- The call of this number has succeeded. -/
def isSuccess (n : Nat) : Entry → Bool
  | .settled m (.resolved _) => m == n
  | _ => false

/-- A successful call is applied once, and then the host is notified once, if it wants to be. -/
structure Once (log : List Entry) : Prop where
  success : ∀ n, log.countP (isSuccess n) ≤ 1
  applied : ∀ n, log.countP (isApplied n) = log.countP (isSuccess n)
  notified : ∀ n, log.countP (isNotified n) = if options.persists then log.countP (isSuccess n) else 0
  order : ∀ n payload earlier, .notified n payload :: earlier <:+ log → earlier.any (isApplied n) = true

/-- A caller that has arrived while a refresh was running waits for it or has got its outcome. -/
def Shared (s : State) : Prop :=
  ∀ c n before, .arrived c :: before <:+ s.log → runningIn before = some n →
    s.waiting.get? c = some n ∨ ∃ outcome, .resolved c outcome ∈ s.log ∧ .over n outcome ∈ s.log

structure Contract (s : State) : Prop where
  no_overlap : AtCalls (fun _ earlier => Quiet earlier) s.log
  live : AtCalls (fun key earlier => some key = liveKey options earlier) s.log
  shared : Shared s
  once : Once options s.log

/-- The operation asks the slot for a refresh. -/
def asks (s : State) : Op → Bool
  | .ensureFreshToken now => (getRefreshKey options).isSome && isStale options s now
  | .doRefresh => (getRefreshKey options).isSome
  | .runRefresh => true
  | .unauthorized => (getRefreshKey options).isSome && (truthy s.refresh).isSome
  | _ => false

/-- A refresh is started only while the initial key is the live one. -/
def KeyLive (s : State) (op : Op) : Prop :=
  asks options s op = true → s.inFlight = none → ∀ key, getRefreshKey options = some key →
    some key = liveKey options s.log

/-! ## What a step does -/

section

variable {options : Options} {s s' : State}

/-- Every step, with whether it asks for a refresh. -/
inductive Moves (options : Options) (s : State) : Bool → State → Prop
  | idle (expiresAt : Option Int) : Moves options s false { s with expiresAt := expiresAt }
  | joined (n : Nat) (h : s.inFlight = some n) :
      Moves options s true
        { s with nextCaller := s.nextCaller + 1, waiting := s.waiting.set s.nextCaller n,
                 log := .arrived s.nextCaller :: s.log }
  | started (key : JsString) (h : s.inFlight = none) (hkey : getRefreshKey options = some key) :
      Moves options s true
        { s with nextCaller := s.nextCaller + 1, waiting := s.waiting.set s.nextCaller s.nextPromise,
                 inFlight := some s.nextPromise, nextPromise := s.nextPromise + 1,
                 calls := s.calls.set s.nextPromise key,
                 log := .called s.nextPromise key :: .arrived s.nextCaller :: s.log }
  | missing (outcome : Outcome) (h : s.inFlight = none) (hkey : getRefreshKey options = none) :
      Moves options s true
        { s with nextCaller := s.nextCaller + 1, waiting := s.waiting.set s.nextCaller s.nextPromise,
                 inFlight := some s.nextPromise, nextPromise := s.nextPromise + 1,
                 ended := s.ended.set s.nextPromise outcome,
                 log := .over s.nextPromise outcome :: .arrived s.nextCaller :: s.log }
  | failed (n : Nat) (key error : JsString) (h : s.calls.get? n = some key) :
      Moves options s false
        { s with calls := s.calls.delete n, ended := s.ended.set n (.rejected error),
                 log := .over n (.rejected error) :: .settled n (.rejected error) :: s.log }
  | succeeded (n : Nat) (key : JsString) (tokens : CodexOAuthTokens) (derived : DerivedTokens) (payload : Payload)
      (outcome : Outcome) (expiresAt : Option Int) (access : JsString) (refresh accountId : Option JsString)
      (h : s.calls.get? n = some key) :
      Moves options s false
        { s with expiresAt := expiresAt, access := access, refresh := refresh, accountId := accountId,
                 calls := s.calls.delete n, ended := s.ended.set n outcome,
                 log := .over n outcome :: ((if options.persists then [.notified n payload] else []) ++
                   .applied n derived :: .settled n (.resolved tokens) :: s.log) }
  | cleared (n : Nat) (outcome : Outcome) (h : s.ended.get? n = some outcome) :
      Moves options s false
        { s with ended := s.ended.delete n, inFlight := none, promises := s.promises.set n outcome,
                 log := .cleared n :: s.log }
  | delivered (caller n : Nat) (outcome : Outcome) (h : s.waiting.get? caller = some n)
      (hn : s.promises.get? n = some outcome) :
      Moves options s false
        { s with waiting := s.waiting.delete caller, log := .resolved caller outcome :: s.log }

theorem Moves.same : Moves options s false s := .idle s.expiresAt

theorem moves_await : Moves options s true (s.await options) := by
  unfold State.await State.refreshSlot
  cases hslot : s.inFlight with
  | some n =>
      have h : Moves options s true _ := .joined n hslot
      simp only [hslot] at h
      exact h
  | none =>
      simp only [State.performRefresh]
      cases hkey : getRefreshKey options with
      | none => exact .missing _ hslot hkey
      | some key => exact .started key hslot hkey

theorem moves_settled (n : Nat) (result : Outcome) (thrown : Option JsString) :
    Moves options s false (s.settled options n result thrown) := by
  unfold State.settled
  cases hcall : s.calls.get? n with
  | none => exact .same
  | some key =>
      cases result with
      | rejected error => exact .failed n key error hcall
      | resolved tokens =>
          have h := fun payload outcome => @Moves.succeeded options s n key tokens
            ⟨tokens.access, tokens.expires, some tokens.refresh⟩ payload outcome (some tokens.expires) tokens.access
            ((some tokens.refresh).or s.refresh) ((options.extractAccountId tokens.access).or s.accountId) hcall
          simp only [State.onRefresh, State.applyTokens, State.settle]
          by_cases hpersists : options.persists = true
          · simp only [hpersists, if_true] at h ⊢
            cases thrown with
            | none => exact h _ _
            | some error => exact h _ _
          · simp only [hpersists] at h ⊢
            exact h ⟨[], [], 0, none⟩ _

theorem moves_step (op : Op) : Moves options s (asks options s op) (step options s op) := by
  have hdo : Moves options s (getRefreshKey options).isSome (s.doRefresh options) := by
    unfold State.doRefresh
    cases hkey : getRefreshKey options with
    | none => exact .same
    | some key => exact moves_await
  cases op with
  | ensureFreshToken now =>
      simp only [asks, step, State.ensureFreshToken]
      cases hkey : getRefreshKey options with
      | none => exact .same
      | some key =>
          cases hstale : isStale options s now with
          | false => exact .same
          | true => simpa [hkey] using hdo
  | doRefresh => exact hdo
  | runRefresh => exact moves_await
  | unauthorized =>
      simp only [asks, step, State.unauthorized]
      cases htoken : truthy s.refresh with
      | none => simpa using Moves.same
      | some token => simpa using hdo
  | setExpiresAt expiresAt => exact .idle expiresAt
  | settled n result thrown => exact moves_settled n result thrown
  | cleared n =>
      simp only [asks, step, State.cleared]
      cases hended : s.ended.get? n with
      | none => exact .same
      | some outcome => exact .cleared n outcome hended
  | delivered caller =>
      simp only [asks, step, State.delivered]
      cases hwait : s.waiting.get? caller with
      | none => exact .same
      | some n =>
          dsimp only
          cases hend : s.promises.get? n with
          | none => exact .same
          | some outcome => exact .delivered caller n outcome hwait hend

/-! ## The invariant -/

theorem atCalls_cons {R : JsString → List Entry → Prop} {x : Entry} {log : List Entry} :
    AtCalls R (x :: log) ↔ (∀ n key, x = .called n key → R key log) ∧ AtCalls R log := by
  constructor
  · intro h
    exact ⟨fun n key hx => h n key log (hx ▸ List.suffix_refl _),
      fun n key earlier he => h n key earlier (he.trans (List.suffix_cons _ _))⟩
  · rintro ⟨hx, h⟩ n key earlier he
    rcases List.suffix_cons_iff.mp he with heq | hsuffix
    · obtain ⟨rfl, rfl⟩ := List.cons.inj heq
      exact hx n key rfl
    · exact h n key earlier hsuffix

structure Inv (options : Options) (s : State) : Prop where
  slot : ∀ n, s.inFlight = some n → n < s.nextPromise
  call : ∀ n key, s.calls.get? n = some key → s.inFlight = some n ∧ s.ended.get? n = none
  ended : ∀ n outcome, s.ended.get? n = some outcome → s.inFlight = some n ∧ .over n outcome ∈ s.log
  promise : ∀ n outcome, s.promises.get? n = some outcome → .over n outcome ∈ s.log
  called : ∀ n key, .called n key ∈ s.log →
    (∃ key, s.calls.get? n = some key) ∨ ∃ result, .settled n result ∈ s.log
  settled : ∀ n result, .settled n result ∈ s.log → n < s.nextPromise ∧ s.calls.get? n = none
  running : ∀ n, runningIn s.log = some n → s.inFlight = some n
  arrived : ∀ c, .arrived c ∈ s.log → c < s.nextCaller
  quiet : AtCalls (fun _ earlier => Quiet earlier) s.log
  shared : Shared s
  once : Once options s.log

/-- With the slot empty no call is open, and nothing waits for its `finally`. -/
theorem Inv.free (h : Inv options s) (hslot : s.inFlight = none) (n : Nat) :
    s.calls.get? n = none ∧ s.ended.get? n = none := by
  constructor
  · cases hcall : s.calls.get? n with
    | none => rfl
    | some key => rw [(h.call n key hcall).1] at hslot; cases hslot
  · cases hended : s.ended.get? n with
    | none => rfl
    | some outcome => rw [(h.ended n outcome hended).1] at hslot; cases hslot

theorem Inv.quiet_now (h : Inv options s) (hslot : s.inFlight = none) : Quiet s.log := by
  intro n key hcalled
  rcases h.called n key hcalled with ⟨key', hcall⟩ | hsettled
  · rw [(h.free hslot n).1] at hcall
    cases hcall
  · exact hsettled

theorem Inv.unsettled (h : Inv options s) {n : Nat} {key : JsString} (hcall : s.calls.get? n = some key)
    (result : Outcome) : .settled n result ∉ s.log := by
  intro hsettled
  rw [(h.settled n result hsettled).2] at hcall
  cases hcall

theorem success_none {n : Nat} {log : List Entry} (h : ∀ result, .settled n result ∉ log) :
    log.countP (isSuccess n) = 0 := by
  refine List.countP_eq_zero.mpr fun x hx => ?_
  cases x with
  | settled m result =>
      cases result with
      | resolved tokens =>
          have hne : m ≠ n := fun he => h (.resolved tokens) (he ▸ hx)
          simpa [isSuccess] using hne
      | rejected error => simp [isSuccess]
  | _ => simp [isSuccess]

theorem Moves.slots {asked : Bool} (hm : Moves options s asked s') (h : Inv options s) :
    (∀ n, s'.inFlight = some n → n < s'.nextPromise) ∧
    (∀ n key, s'.calls.get? n = some key → s'.inFlight = some n ∧ s'.ended.get? n = none) ∧
    (∀ n outcome, s'.ended.get? n = some outcome → s'.inFlight = some n ∧ .over n outcome ∈ s'.log) := by
  have hslot := h.slot
  have hcall := h.call
  have hended := h.ended
  cases hm with
  | idle expiresAt => exact ⟨hslot, hcall, hended⟩
  | joined n hn => grind
  | started key hn hkey =>
      have hfree := h.free hn
      grind [JsMap.get?_set]
  | missing outcome hn hkey =>
      have hfree := h.free hn
      grind [JsMap.get?_set]
  | failed n key error hn => grind [JsMap.get?_set, JsMap.get?_delete]
  | succeeded n key tokens derived payload outcome expiresAt access refresh accountId hn =>
      grind [JsMap.get?_set, JsMap.get?_delete]
  | cleared n outcome hn => grind [JsMap.get?_delete]
  | delivered caller n outcome hn hend => grind

theorem Moves.shared {asked : Bool} (hm : Moves options s asked s') (h : Inv options s) : Shared s' := by
  have hshared := h.shared
  have harrived : ∀ c before, .arrived c :: before <:+ s.log → c < s.nextCaller := fun c before hb =>
    h.arrived c (hb.mem List.mem_cons_self)
  intro c m before hbefore hrun
  cases hm with
  | idle expiresAt => exact hshared c m before hbefore hrun
  | joined n hn =>
      rw [List.suffix_cons_iff] at hbefore
      rcases hbefore with heq | hbefore
      · obtain ⟨hc, rfl⟩ := List.cons.inj heq
        cases hc
        have hm := h.running m hrun
        left
        rw [hn] at hm
        rw [JsMap.get?_set_self, hm]
      · have hne : s.nextCaller ≠ c := (harrived c before hbefore).ne'
        simpa [JsMap.get?_set, hne] using hshared c m before hbefore hrun
  | started key hn hkey | missing outcome hn hkey =>
      simp only [List.suffix_cons_iff, List.cons.injEq, reduceCtorEq, false_and, false_or] at hbefore
      rcases hbefore with ⟨-, rfl⟩ | hbefore
      · rw [h.running m hrun] at hn
        cases hn
      · have hne : s.nextCaller ≠ c := (harrived c before hbefore).ne'
        have hold := hshared c m before hbefore hrun
        simp only [JsMap.get?_set, hne, if_false, List.mem_cons]
        grind
  | failed n key error hn =>
      have hold := hshared c m before (by simpa [List.suffix_cons_iff] using hbefore) hrun
      grind
  | succeeded n key tokens derived payload outcome expiresAt access refresh accountId hn =>
      have hold := hshared c m before (by cases hp : options.persists <;> simpa [hp, List.suffix_cons_iff] using hbefore)
        hrun
      grind
  | cleared n outcome hn =>
      have hold := hshared c m before (by simpa [List.suffix_cons_iff] using hbefore) hrun
      grind
  | delivered caller n outcome hn hend =>
      have hold := hshared c m before (by simpa [List.suffix_cons_iff] using hbefore) hrun
      have hover := h.promise n outcome hend
      grind [JsMap.get?_delete]

theorem Moves.once {asked : Bool} (hm : Moves options s asked s') (h : Inv options s) : Once options s'.log := by
  have honce := h.once
  cases hm with
  | idle expiresAt => exact honce
  | succeeded n key tokens derived payload outcome expiresAt access refresh accountId hn =>
      have hzero := success_none (h.unsettled hn)
      have happlied := honce.applied n
      have hnotified := honce.notified n
      refine ⟨fun m => ?_, fun m => ?_, fun m => ?_, ?_⟩
      · have := honce.success m
        cases hp : options.persists <;> by_cases hm : n = m <;> simp_all [isSuccess]
      · have := honce.applied m
        cases hp : options.persists <;> by_cases hm : n = m <;> simp_all [isSuccess, isApplied]
      · have := honce.notified m
        cases hp : options.persists <;> by_cases hm : n = m <;> simp_all [isSuccess, isNotified]
      · intro m payload' earlier hsuffix
        have hold := honce.order m payload' earlier
        cases hp : options.persists with
        | false => exact hold (by simpa [hp, List.suffix_cons_iff] using hsuffix)
        | true =>
            simp only [hp, if_true, List.suffix_cons_iff, List.cons_append, List.nil_append, List.cons.injEq,
              reduceCtorEq, false_and, false_or, Entry.notified.injEq] at hsuffix
            rcases hsuffix with ⟨⟨rfl, -⟩, rfl⟩ | hsuffix
            · simp [isApplied]
            · exact hold hsuffix
  | _ =>
      exact ⟨fun m => by simpa [List.countP_cons, isSuccess] using honce.success m,
        fun m => by simpa [List.countP_cons, isSuccess, isApplied] using honce.applied m,
        fun m => by simpa [List.countP_cons, isSuccess, isNotified] using honce.notified m,
        fun m payload earlier hsuffix => honce.order m payload earlier (by simpa [List.suffix_cons_iff] using hsuffix)⟩

theorem Moves.inv {asked : Bool} (hm : Moves options s asked s') (h : Inv options s) : Inv options s' where
  slot := (hm.slots h).1
  call := (hm.slots h).2.1
  ended := (hm.slots h).2.2
  promise := by
    have hpromise := h.promise
    have hended := h.ended
    cases hm <;> grind [JsMap.get?_set]
  called := by
    have hcalled := h.called
    cases hm <;> grind [JsMap.get?_set, JsMap.get?_delete]
  settled := by
    have hsettled := h.settled
    have hcall := h.call
    have hslot := h.slot
    cases hm <;> grind [JsMap.get?_set, JsMap.get?_delete]
  running := by
    have hrunning := h.running
    cases hm with
    | idle expiresAt => exact hrunning
    | joined n hn => exact hrunning
    | started key hn hkey => exact fun m hm => hm
    | missing outcome hn hkey =>
        intro m hm
        rw [hrunning m hm] at hn
        cases hn
    | failed n key error hn => exact hrunning
    | succeeded n key tokens derived payload outcome expiresAt access refresh accountId hn =>
        cases hpersists : options.persists <;> exact hrunning
    | cleared n outcome hn => exact fun m hm => hm
    | delivered caller n outcome hn hend => exact hrunning
  arrived := by
    have harrived := h.arrived
    cases hm <;> grind
  quiet := by
    have hquiet := h.quiet
    cases hm with
    | idle expiresAt => exact hquiet
    | started key hn hkey =>
        refine atCalls_cons.mpr ⟨fun m key' _ => ?_, by simpa [atCalls_cons] using hquiet⟩
        intro m key hcalled
        obtain ⟨result, hresult⟩ := h.quiet_now hn m key (by simpa using hcalled)
        exact ⟨result, List.mem_cons_of_mem _ hresult⟩
    | succeeded n key tokens derived payload outcome expiresAt access refresh accountId hn =>
        cases hpersists : options.persists <;> simpa [atCalls_cons] using hquiet
    | _ => simpa [atCalls_cons] using hquiet
  shared := hm.shared h
  once := hm.once h

theorem inv_start : Inv options (start options) where
  slot n h := by cases h
  call n key h := by cases h
  ended n outcome h := by cases h
  promise n outcome h := by cases h
  called n key h := by cases h
  settled n result h := by cases h
  running n h := by cases h
  arrived c h := by cases h
  quiet n key earlier h := by
    rw [start, List.suffix_nil] at h
    cases h
  shared c n before h := by
    rw [start, List.suffix_nil] at h
    cases h
  once :=
    { success := fun n => Nat.zero_le _
      applied := fun n => rfl
      notified := fun n => (ite_self _).symm
      order := fun n payload earlier h => by
        rw [start, List.suffix_nil] at h
        cases h }

theorem inv_run (ops : List Op) : Inv options (run (step options) (start options) ops) :=
  run_invariant (fun _ op h => (moves_step op).inv h) inv_start ops

/-! ## The live key -/

/-- The key of a new call is live if and only if the state before the step has the initial key for the live one. -/
theorem live_step (op : Op) :
    AtCalls (fun key earlier => some key = liveKey options earlier) (step options s op).log ↔
      AtCalls (fun key earlier => some key = liveKey options earlier) s.log ∧ KeyLive options s op := by
  have hm : Moves options s (asks options s op) (step options s op) := moves_step op
  unfold KeyLive
  generalize asks options s op = asked at hm ⊢
  generalize step options s op = s' at hm ⊢
  cases hm with
  | idle expiresAt => simp
  | joined n hn => simp [atCalls_cons, hn]
  | started key hn hkey =>
      have harrived : liveKey options (.arrived s.nextCaller :: s.log) = liveKey options s.log := rfl
      simp only [atCalls_cons, Entry.called.injEq, reduceCtorEq, hn, hkey, harrived, Option.some.injEq]
      constructor
      · rintro ⟨hlive, -, hlog⟩
        exact ⟨hlog, fun _ _ key' hkey' => hkey' ▸ hlive _ key ⟨rfl, rfl⟩⟩
      · rintro ⟨hlog, hlive⟩
        exact ⟨fun n key' hkey' => hlive trivial trivial key' hkey'.2, by simp, hlog⟩
  | missing outcome hn hkey => simp [atCalls_cons, hkey]
  | succeeded n key tokens derived payload outcome expiresAt access refresh accountId hn =>
      cases hpersists : options.persists <;> simp [atCalls_cons]
  | _ => simp [atCalls_cons]

theorem live_run (ops : List Op) (s : State) :
    AtCalls (fun key earlier => some key = liveKey options earlier) (run (step options) s ops).log ↔
      AtCalls (fun key earlier => some key = liveKey options earlier) s.log ∧
        Under (step options) (KeyLive options) s ops := by
  induction ops generalizing s with
  | nil => simp [Under]
  | cons op ops ih => rw [run_cons, ih, live_step, Under, and_assoc]

/-- **The contract of a refresh** holds of a run if and only if every refresh in it is started while the initial
key is the live one. -/
theorem contract_iff (options : Options) (ops : List Op) :
    Contract options (run (step options) (start options) ops) ↔
      Under (step options) (KeyLive options) (start options) ops := by
  have hinv : Inv options (run (step options) (start options) ops) := inv_run ops
  have hstart : AtCalls (fun key earlier => some key = liveKey options earlier) (start options).log := by
    intro n key earlier h
    rw [start, List.suffix_nil] at h
    cases h
  constructor
  · intro h
    exact ((live_run ops _).mp h.live).2
  · intro h
    exact ⟨hinv.quiet, (live_run ops _).mpr ⟨hstart, h⟩, hinv.shared, hinv.once⟩

/-- Whatever key they are given, calls do not overlap, callers share what is running, and each success is applied and
reported once. -/
theorem refreshes_shared (options : Options) (ops : List Op) :
    let s := run (step options) (start options) ops
    AtCalls (fun _ earlier => Quiet earlier) s.log ∧ Shared s ∧ Once options s.log := by
  have hinv : Inv options (run (step options) (start options) ops) := inv_run ops
  exact ⟨hinv.quiet, hinv.shared, hinv.once⟩

def rotating : Options := { accessToken := js "a", refreshToken := some (js "r0") }

/-- Two refreshes that succeed, each with a new key. -/
def twoRefreshes : List Op :=
  [.doRefresh, .settled 0 (.resolved ⟨js "b", js "r1", 0⟩) none, .cleared 0, .delivered 0,
    .doRefresh, .settled 1 (.resolved ⟨js "c", js "r2", 0⟩) none, .cleared 1, .delivered 1]

/-- The second refresh is asked for with the first key. -/
theorem second_refresh_stale : ¬ Contract rotating (run (step rotating) (start rotating) twoRefreshes) := by
  intro h
  have hcall := h.live 1 (js "r0") ((run (step rotating) (start rotating) twoRefreshes).log.drop 7)
    ⟨(run (step rotating) (start rotating) twoRefreshes).log.take 6, by decide +kernel⟩
  revert hcall
  decide +kernel

end

end WrongStack.OAuthRefresh
