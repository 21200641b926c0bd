import InfiniteRicks.PassphraseSpec

/-!
# Relocking the wallet

`walletpassphrase`, `walletpassphrasechange`, `walletlock` and the threads of
`ThreadCleanWalletPassphrase` (`rpcwallet.cpp`), which share `nWalletUnlockTime`. The calls exclude
each other. A thread takes its wake time before it enters the critical section, and enters it again
each time it wakes up; between these any calls and threads may run. Times are in milliseconds, and the clock
shows a time after 1970, so that no sum of times overflows.
-/

namespace InfiniteRicks

/-- Where a relock thread stands. -/
inductive RelockThread where
  /-- Made by `NewThread`, with the seconds it is to sleep. -/
  | created (nSleepTime : Int)
  /-- Waiting for its first critical section. -/
  | started (nMyWakeTime : Int)
  /-- In `MilliSleep`. -/
  | sleeping (nMyWakeTime : Int)
  | finished (nMyWakeTime : Int)
deriving DecidableEq

/-- The wake time of a thread that has been in its first critical section. -/
def RelockThread.entered : RelockThread → Option Int
  | sleeping nMyWakeTime => some nMyWakeTime
  | finished nMyWakeTime => some nMyWakeTime
  | _ => none

/-- A wallet with its relock threads, oldest first: one for each successful `walletpassphrase`. -/
structure RelockState where
  wallet : CryptedWallet
  nWalletUnlockTime : Int
  threads : List RelockThread

inductive RelockEvent where
  | walletpassphrase (strWalletPass : Bytes) (nSleepTime : Int)
  | walletpassphrasechange (strOldWalletPass strNewWalletPass : Bytes) (measured : UInt32)
  | walletlock
  /-- `nMyWakeTime` is taken. -/
  | start (thread : Nat) (now : Int)
  /-- The first critical section. -/
  | enter (thread : Nat) (now : Int)
  /-- `MilliSleep` returns. -/
  | wake (thread : Nat) (now : Int)

namespace RelockState

variable (crypto : WalletCrypto)

def setThread (s : RelockState) (thread : Nat) (state : RelockThread) : RelockState :=
  { s with threads := s.threads.set thread state }

/-- A round of the loop of a thread and, where it is the last one, what follows the loop. -/
def round (s : RelockState) (thread : Nat) (nMyWakeTime now : Int) : RelockState :=
  if s.nWalletUnlockTime = 0 then s.setThread thread (.finished nMyWakeTime)
  else if s.nWalletUnlockTime - now ≤ 0 then
    { s.setThread thread (.finished nMyWakeTime) with nWalletUnlockTime := 0, wallet := s.wallet.lock }
  else s.setThread thread (.sleeping nMyWakeTime)

/-- The first critical section of a thread. -/
def enterSection (s : RelockState) (thread : Nat) (nMyWakeTime now : Int) : RelockState :=
  if s.nWalletUnlockTime = 0 then { s with nWalletUnlockTime := nMyWakeTime }.round thread nMyWakeTime now
  else
    { s.setThread thread (.finished nMyWakeTime) with
      nWalletUnlockTime := if s.nWalletUnlockTime < nMyWakeTime then nMyWakeTime else s.nWalletUnlockTime }

/-- `walletpassphrase`. A call that throws changes nothing. -/
def walletpassphrase (s : RelockState) (strWalletPass : Bytes) (nSleepTime : Int) : RelockState :=
  if s.wallet.keystore.isCrypted = false ∨ s.wallet.isLocked = false ∨ strWalletPass = [] then s
  else
    match s.wallet.unlock crypto strWalletPass with
    | some (true, wallet) => { s with wallet := wallet, threads := s.threads ++ [.created nSleepTime] }
    | some (false, wallet) => { s with wallet := wallet }
    | none => s

/-- `walletpassphrasechange`. A change that throws has locked the wallet. -/
def walletpassphrasechange (s : RelockState) (strOldWalletPass strNewWalletPass : Bytes) (measured : UInt32) :
    RelockState :=
  if s.wallet.keystore.isCrypted = false ∨ strOldWalletPass = [] ∨ strNewWalletPass = [] then s
  else
    match s.wallet.changeWalletPassphrase crypto strOldWalletPass strNewWalletPass measured with
    | some (_, wallet) => { s with wallet := wallet }
    | none => { s with wallet := s.wallet.lock }

/-- `walletlock`. -/
def walletlock (s : RelockState) : RelockState :=
  if s.wallet.keystore.isCrypted = false then s else { s with wallet := s.wallet.lock, nWalletUnlockTime := 0 }

/-- A thread that does not stand where the event finds it does nothing. -/
def step (s : RelockState) : RelockEvent → RelockState
  | .walletpassphrase strWalletPass nSleepTime => s.walletpassphrase crypto strWalletPass nSleepTime
  | .walletpassphrasechange strOldWalletPass strNewWalletPass measured =>
      s.walletpassphrasechange crypto strOldWalletPass strNewWalletPass measured
  | .walletlock => s.walletlock
  | .start thread now =>
      match s.threads[thread]? with
      | some (.created nSleepTime) => s.setThread thread (.started (now + nSleepTime * 1000))
      | _ => s
  | .enter thread now =>
      match s.threads[thread]? with
      | some (.started nMyWakeTime) => s.enterSection thread nMyWakeTime now
      | _ => s
  | .wake thread now =>
      match s.threads[thread]? with
      | some (.sleeping nMyWakeTime) => s.round thread nMyWakeTime now
      | _ => s

/-- The state before the first call. -/
def start (wallet : CryptedWallet) : RelockState := ⟨wallet, 0, []⟩

def run (wallet : CryptedWallet) (events : List RelockEvent) : RelockState := events.foldl (step crypto) (start wallet)

/-- The wake time of the thread of the most recent successful `walletpassphrase`, once it has been in its first
critical section. -/
def latest (s : RelockState) : Option Int := s.threads.getLast?.bind RelockThread.entered

/-- An unlocked wallet is locked again no later than the most recent successful `walletpassphrase` asked for. -/
def OnSchedule (s : RelockState) : Prop :=
  s.wallet.isLocked = false → ∀ nMyWakeTime, s.latest = some nMyWakeTime →
    s.nWalletUnlockTime ≠ 0 ∧ s.nWalletUnlockTime ≤ nMyWakeTime

end RelockState

namespace RelockEvent

/-- The seconds to sleep are from 0 to 2^40 and the clock shows a time after 1970. -/
def Legal : RelockEvent → Prop
  | walletpassphrase _ nSleepTime => 0 ≤ nSleepTime ∧ nSleepTime < 2 ^ 40
  | start _ now => 0 < now
  | _ => True

/-- A thread that enters its first critical section while the wallet is unlocked: the most recent one finds no
later deadline than its own, and another one is not later than the most recent one that has entered before it. -/
def InTime (s : RelockState) : RelockEvent → Prop
  | enter thread _ => s.wallet.isLocked = false → ∀ nMyWakeTime, s.threads[thread]? = some (.started nMyWakeTime) →
      (thread + 1 = s.threads.length → s.nWalletUnlockTime ≤ nMyWakeTime) ∧
        ∀ latest, s.latest = some latest → nMyWakeTime ≤ latest
  | _ => True

end RelockEvent

open CCryptoKeyStore

/-! ## The lock state after a call -/

namespace CryptedWallet

variable {crypto : WalletCrypto} {w after : CryptedWallet}

theorem isLocked_lock_of_mode (mode : w.keystore.fUseCrypto = true) : w.lock.isLocked = true := by
  have locked := lock_of_mode mode
  exact isLocked_of_locked (w := w.lock) (by rw [CryptedWallet.lock, locked]; exact mode) (by rw [CryptedWallet.lock, locked])

/-- The key store after its `Unlock`: it is another one just where that returned true. -/
theorem unlock_store {s store : CCryptoKeyStore} {k : Bytes} {done : Bool} (mode : s.fUseCrypto = true)
    (result : s.unlock crypto.toKeyCrypto k = some (done, store)) :
    store.fUseCrypto = true ∧ (done = false → store = s) := by
  rw [unlock_of_mode mode] at result
  obtain ⟨opens, -, result⟩ := Option.map_eq_some_iff.mp result
  cases opens with
  | true =>
      obtain ⟨rfl, rfl⟩ := Prod.mk.inj result
      exact ⟨mode, fun wrong => by cases wrong⟩
  | false =>
      obtain ⟨rfl, rfl⟩ := Prod.mk.inj result
      exact ⟨mode, fun _ => rfl⟩

theorem unlockRecords_store {passphrase : Bytes} {records : List (UInt32 × CMasterKey)} {s store : CCryptoKeyStore}
    {done : Bool} (mode : s.fUseCrypto = true) (result : unlockRecords crypto passphrase records s = some (done, store)) :
    store.fUseCrypto = true ∧ (done = false → store = s) := by
  induction records generalizing s with
  | nil =>
      rw [unlockRecords] at result
      obtain ⟨rfl, rfl⟩ := Prod.mk.inj (Option.some.inj result)
      exact ⟨mode, fun _ => rfl⟩
  | cons entry rest ih =>
      rw [unlockRecords] at result
      split at result
      · obtain ⟨rfl, rfl⟩ := Prod.mk.inj (Option.some.inj result)
        exact ⟨mode, fun _ => rfl⟩
      · split at result
        · cases result
        · rename_i unlocked
          obtain ⟨rfl, rfl⟩ := Prod.mk.inj (Option.some.inj result)
          exact ⟨(unlock_store mode unlocked).1, fun wrong => by cases wrong⟩
        · rename_i refused
          obtain rfl := (unlock_store mode refused).2 rfl
          exact ih mode result

/-- A passphrase that opens a record can be replaced: its salt and its method are good. -/
theorem sealRecord_of_openRecord {old new m : Bytes} {record : CMasterKey} {measured : UInt32}
    (opened : openRecord crypto old record = some m) :
    sealRecord crypto new m { record with nDeriveIterations := max measured leastIterations } ≠ none := by
  obtain ⟨key, derived, -⟩ := Option.bind_eq_some_iff.mp opened
  rw [setKeyFromPassphrase] at derived
  split at derived
  · cases derived
  · rename_i good
    split at derived
    · rename_i method
      rw [sealRecord, setKeyFromPassphrase_eq { record with nDeriveIterations := max measured leastIterations }
        (not_not.mp (not_or.mp good).2) method (leastIterations_le measured)]
      exact fun wrong => by cases wrong
    · cases derived

theorem changeRecords_store {old new : Bytes} {measured : UInt32} {records : List (UInt32 × CMasterKey)}
    {s store : CCryptoKeyStore} {done : Bool} {changed : List (UInt32 × CMasterKey)} (mode : s.fUseCrypto = true)
    (result : changeRecords crypto old new measured records s = some (done, changed, store)) :
    store.fUseCrypto = true ∧ (done = false → store = s) := by
  induction records generalizing s changed with
  | nil =>
      rw [changeRecords] at result
      obtain ⟨rfl, -, rfl⟩ := Option.some.inj result
      exact ⟨mode, fun _ => rfl⟩
  | cons entry rest ih =>
      rw [changeRecords] at result
      split at result
      · obtain ⟨rfl, -, rfl⟩ := Option.some.inj result
        exact ⟨mode, fun _ => rfl⟩
      · rename_i opened
        split at result
        · cases result
        · rename_i refused
          obtain rfl := (unlock_store mode refused).2 rfl
          obtain ⟨⟨_, _, _⟩, tail, same⟩ := Option.map_eq_some_iff.mp result
          obtain ⟨rfl, -, rfl⟩ := same
          exact ih mode tail
        · rename_i unlocked
          dsimp only at result
          split at result
          · rename_i unsealed
            exact absurd unsealed (sealRecord_of_openRecord opened)
          · obtain ⟨rfl, -, rfl⟩ := Option.some.inj result
            exact ⟨(unlock_store mode unlocked).1, fun wrong => by cases wrong⟩

theorem unlock_isLocked {passphrase : Bytes} {done : Bool} (mode : w.keystore.fUseCrypto = true)
    (result : w.unlock crypto passphrase = some (done, after)) :
    after.keystore.fUseCrypto = true ∧ (done = false → after.isLocked = w.isLocked) := by
  rw [CryptedWallet.unlock] at result
  split at result
  · obtain ⟨rfl, rfl⟩ := Prod.mk.inj (Option.some.inj result)
    exact ⟨mode, fun _ => rfl⟩
  · obtain ⟨⟨_, store⟩, loop, same⟩ := Option.map_eq_some_iff.mp result
    obtain ⟨rfl, rfl⟩ := Prod.mk.inj same
    obtain ⟨kept, unchanged⟩ := unlockRecords_store mode loop
    exact ⟨kept, fun failed => congrArg CCryptoKeyStore.isLocked (unchanged failed)⟩

/-- `ChangeWalletPassphrase` never unlocks a wallet. -/
theorem changeWalletPassphrase_isLocked {old new : Bytes} {measured : UInt32} {done : Bool}
    (mode : w.keystore.fUseCrypto = true)
    (result : w.changeWalletPassphrase crypto old new measured = some (done, after)) :
    after.keystore.fUseCrypto = true ∧ (w.isLocked = true ∨ done = false → after.isLocked = true) := by
  obtain ⟨⟨_, records, store⟩, loop, same⟩ := Option.map_eq_some_iff.mp result
  obtain ⟨rfl, rfl⟩ := Prod.mk.inj same
  have locked : w.keystore.lock.2.fUseCrypto = true := by
    rw [lock_of_mode mode]
    exact mode
  obtain ⟨kept, unchanged⟩ := changeRecords_store locked loop
  have relocked : store.lock.2.fUseCrypto = true := by
    rw [lock_of_mode kept]
    exact kept
  rename_i done
  cases done with
  | false => exact ⟨kept, fun _ => (congrArg CCryptoKeyStore.isLocked (unchanged rfl)).trans (isLocked_lock_of_mode mode)⟩
  | true =>
      cases was : w.isLocked with
      | true => exact ⟨relocked, fun _ => isLocked_lock_of_mode (w := { w with keystore := store }) kept⟩
      | false => exact ⟨kept, by rintro (⟨⟨⟩⟩ | ⟨⟨⟩⟩)⟩

end CryptedWallet

/-! ## Threads and the deadline -/

/-- What a thread of a run looks like. -/
def RelockThread.Timely : RelockThread → Prop
  | created nSleepTime => 0 ≤ nSleepTime
  | started nMyWakeTime => 0 < nMyWakeTime
  | sleeping nMyWakeTime => 0 < nMyWakeTime
  | finished nMyWakeTime => 0 < nMyWakeTime

namespace RelockState

variable {crypto : WalletCrypto} {s : RelockState} {thread : Nat} {nMyWakeTime now : Int}

/-- What every run keeps. -/
structure Timely (s : RelockState) : Prop where
  threads : ∀ thread ∈ s.threads, thread.Timely
  deadline : 0 ≤ s.nWalletUnlockTime
  crypted : s.threads ≠ [] → s.wallet.keystore.fUseCrypto = true

theorem latest_setThread (inside : thread < s.threads.length) (state : RelockThread) :
    (s.setThread thread state).latest = if thread + 1 = s.threads.length then state.entered else s.latest := by
  rw [latest, latest, setThread, List.getLast?_eq_getElem?, List.getLast?_eq_getElem?, List.length_set, List.getElem?_set]
  by_cases last : thread + 1 = s.threads.length
  · rw [if_pos (by omega), if_pos (by omega), if_pos last, Option.bind_some]
  · rw [if_neg (by omega), if_neg last]

theorem Timely.setThread (timely : s.Timely) (thread : Nat) {state : RelockThread} (good : state.Timely) :
    (s.setThread thread state).Timely where
  threads other member := by
    rcases List.mem_or_eq_of_mem_set member with old | rfl
    · exact timely.threads other old
    · exact good
  deadline := timely.deadline
  crypted real := timely.crypted fun none => real (by rw [RelockState.setThread, none, List.set_nil])

theorem OnSchedule.of_locked (locked : s.wallet.isLocked = true) : s.OnSchedule := by
  intro open_
  rw [locked] at open_
  cases open_

/-- A round of a loop keeps the wake time of the thread. -/
theorem round_spec (timely : s.Timely) (crypted : s.wallet.keystore.fUseCrypto = true) (positive : 0 < nMyWakeTime) :
    (s.round thread nMyWakeTime now).Timely ∧
      ((s.round thread nMyWakeTime now).wallet.isLocked = true ∨
        ∃ state, state.entered = some nMyWakeTime ∧ s.round thread nMyWakeTime now = s.setThread thread state) := by
  have finished : (RelockThread.finished nMyWakeTime).Timely := positive
  have sleeping : (RelockThread.sleeping nMyWakeTime).Timely := positive
  have kept := timely.setThread thread finished
  rw [round]
  split
  · exact ⟨kept, .inr ⟨_, rfl, rfl⟩⟩
  · split
    · have mode : s.wallet.lock.keystore.fUseCrypto = true := by
        rw [CryptedWallet.lock, lock_of_mode crypted]
        exact crypted
      exact ⟨⟨kept.threads, le_rfl, fun _ => mode⟩, .inl (CryptedWallet.isLocked_lock_of_mode crypted)⟩
    · exact ⟨timely.setThread thread sleeping, .inr ⟨_, rfl, rfl⟩⟩

/-- What the wallet's key store is, and a later deadline, do not matter to the threads. -/
theorem Timely.withWallet (timely : s.Timely) {wallet : CryptedWallet} (crypted : wallet.keystore.fUseCrypto = true) :
    ({ s with wallet := wallet } : RelockState).Timely :=
  ⟨timely.threads, timely.deadline, fun _ => crypted⟩

/-- The first critical section of a thread keeps the schedule just where it is in time. -/
theorem enterSection_spec (timely : s.Timely) (crypted : s.wallet.keystore.fUseCrypto = true)
    (waiting : s.threads[thread]? = some (.started nMyWakeTime)) :
    (s.enterSection thread nMyWakeTime now).Timely ∧
      (s.OnSchedule → ((RelockEvent.enter thread now).InTime s ↔ (s.enterSection thread nMyWakeTime now).OnSchedule)) := by
  obtain ⟨inside, isThread⟩ := List.getElem?_eq_some_iff.mp waiting
  have positive : 0 < nMyWakeTime := timely.threads _ (List.mem_of_getElem? waiting)
  have nonneg := timely.deadline
  have inTime : (RelockEvent.enter thread now).InTime s ↔ (s.wallet.isLocked = false →
      (thread + 1 = s.threads.length → s.nWalletUnlockTime ≤ nMyWakeTime) ∧
        ∀ latest, s.latest = some latest → nMyWakeTime ≤ latest) := by
    refine ⟨fun inTime open_ => inTime open_ _ waiting, fun inTime open_ other same => ?_⟩
    obtain rfl := RelockThread.started.inj (Option.some.inj (waiting.symm.trans same))
    exact inTime open_
  have fresh : thread + 1 = s.threads.length → s.latest = none := by
    intro last
    rw [latest, List.getLast?_eq_getElem?, ← last, Nat.add_sub_cancel, waiting]
    rfl
  rw [enterSection]
  split
  · rename_i zero
    have begun : ({ s with nWalletUnlockTime := nMyWakeTime } : RelockState).Timely :=
      ⟨timely.threads, positive.le, fun _ => crypted⟩
    obtain ⟨kept, locked | ⟨state, entered, same⟩⟩ := @round_spec _ thread _ now begun crypted positive
    · refine ⟨kept, fun onSchedule => ⟨fun _ => .of_locked locked, fun _ => inTime.mpr fun open_ => ⟨fun _ => ?_, fun other isLatest => ?_⟩⟩⟩
      · omega
      · exact absurd zero (onSchedule open_ other isLatest).1
    · refine ⟨kept, fun onSchedule => ⟨fun _ => ?_, fun _ => inTime.mpr fun open_ => ⟨fun _ => ?_, fun other isLatest => ?_⟩⟩⟩
      · rw [same]
        intro open_ other isLatest
        have isLatest : (s.setThread thread state).latest = some other := isLatest
        rw [latest_setThread inside] at isLatest
        split at isLatest
        · obtain rfl := Option.some.inj (entered.symm.trans isLatest)
          exact ⟨positive.ne', le_rfl⟩
        · exact absurd zero (onSchedule open_ other isLatest).1
      · omega
      · exact absurd zero (onSchedule open_ other isLatest).1
  · rename_i set_
    have finished : (RelockThread.finished nMyWakeTime).Timely := positive
    refine ⟨⟨(timely.setThread thread finished).threads, ?_, fun _ => crypted⟩, fun onSchedule => ?_⟩
    · dsimp only
      split <;> omega
    rw [inTime]
    constructor
    · intro early open_ other isLatest
      obtain ⟨own, later⟩ := early open_
      have isLatest : (s.setThread thread (.finished nMyWakeTime)).latest = some other := isLatest
      rw [latest_setThread inside] at isLatest
      dsimp only
      split at isLatest
      · rename_i last
        obtain rfl := Option.some.inj isLatest
        have := own last
        split <;> omega
      · have := onSchedule open_ other isLatest
        have := later other isLatest
        split <;> omega
    · intro after open_
      have entered : ∀ other, (s.setThread thread (.finished nMyWakeTime)).latest = some other →
          (if s.nWalletUnlockTime < nMyWakeTime then nMyWakeTime else s.nWalletUnlockTime) ≤ other :=
        fun other isLatest => (after open_ other isLatest).2
      rw [latest_setThread inside] at entered
      refine ⟨fun last => ?_, fun other isLatest => ?_⟩
      · rw [if_pos last] at entered
        have := entered nMyWakeTime rfl
        split at this <;> omega
      · have notLast : thread + 1 ≠ s.threads.length := by
          intro last
          rw [fresh last] at isLatest
          cases isLatest
        rw [if_neg notLast] at entered
        have := entered other isLatest
        split at this <;> omega

theorem walletpassphrase_spec (timely : s.Timely) (strWalletPass : Bytes) {nSleepTime : Int} (legal : 0 ≤ nSleepTime) :
    (s.walletpassphrase crypto strWalletPass nSleepTime).Timely ∧
      (s.OnSchedule → (s.walletpassphrase crypto strWalletPass nSleepTime).OnSchedule) := by
  rw [walletpassphrase]
  split
  · exact ⟨timely, id⟩
  rename_i accepted
  obtain ⟨crypted, locked, -⟩ := not_or.mp accepted |>.imp_right not_or.mp
  have mode : s.wallet.keystore.fUseCrypto = true := Bool.of_not_eq_false crypted
  split
  · rename_i wallet unlocked
    refine ⟨⟨fun thread member => ?_, timely.deadline, fun _ => (CryptedWallet.unlock_isLocked mode unlocked).1⟩, fun _ => ?_⟩
    · rcases List.mem_append.mp member with old | new
      · exact timely.threads thread old
      · rw [List.mem_singleton.mp new]
        exact legal
    · intro _ other isLatest
      rw [latest, List.getLast?_concat] at isLatest
      cases isLatest
  · rename_i wallet refused
    obtain ⟨kept, same⟩ := CryptedWallet.unlock_isLocked mode refused
    exact ⟨timely.withWallet kept, fun _ => .of_locked ((same rfl).trans (Bool.of_not_eq_false locked))⟩
  · exact ⟨timely, id⟩

theorem walletpassphrasechange_spec (timely : s.Timely) (old new : Bytes) (measured : UInt32) :
    (s.walletpassphrasechange crypto old new measured).Timely ∧
      (s.OnSchedule → (s.walletpassphrasechange crypto old new measured).OnSchedule) := by
  rw [walletpassphrasechange]
  split
  · exact ⟨timely, id⟩
  rename_i accepted
  have mode : s.wallet.keystore.fUseCrypto = true := Bool.of_not_eq_false (not_or.mp accepted).1
  split
  · rename_i done wallet changed
    obtain ⟨kept, locks⟩ := CryptedWallet.changeWalletPassphrase_isLocked mode changed
    refine ⟨timely.withWallet kept, fun onSchedule open_ => onSchedule ?_⟩
    refine Bool.eq_false_iff.mpr fun was => ?_
    rw [show wallet.isLocked = true from locks (.inl was)] at open_
    cases open_
  · have locked := CryptedWallet.isLocked_lock_of_mode mode
    refine ⟨timely.withWallet ?_, fun _ => .of_locked locked⟩
    rw [CryptedWallet.lock, lock_of_mode mode]
    exact mode

theorem walletlock_spec (timely : s.Timely) : s.walletlock.Timely ∧ (s.OnSchedule → s.walletlock.OnSchedule) := by
  rw [walletlock]
  split
  · exact ⟨timely, id⟩
  rename_i crypted
  have mode : s.wallet.keystore.fUseCrypto = true := Bool.of_not_eq_false crypted
  refine ⟨⟨timely.threads, le_rfl, fun _ => ?_⟩, fun _ => .of_locked (CryptedWallet.isLocked_lock_of_mode mode)⟩
  rw [CryptedWallet.lock, lock_of_mode mode]
  exact mode

/-- A thread that takes its wake time has not been in its first critical section. -/
theorem started_spec (timely : s.Timely) {nSleepTime : Int} (found : s.threads[thread]? = some (.created nSleepTime))
    (positive : 0 < nMyWakeTime) :
    (s.setThread thread (.started nMyWakeTime)).Timely ∧
      (s.OnSchedule → (s.setThread thread (.started nMyWakeTime)).OnSchedule) := by
  have started : (RelockThread.started nMyWakeTime).Timely := positive
  refine ⟨timely.setThread thread started, fun onSchedule open_ other isLatest => ?_⟩
  rw [latest_setThread (List.getElem?_eq_some_iff.mp found).1] at isLatest
  split at isLatest
  · cases isLatest
  · exact onSchedule open_ other isLatest

theorem woken_spec (timely : s.Timely) (found : s.threads[thread]? = some (.sleeping nMyWakeTime)) :
    (s.round thread nMyWakeTime now).Timely ∧ (s.OnSchedule → (s.round thread nMyWakeTime now).OnSchedule) := by
  obtain ⟨inside, isThread⟩ := List.getElem?_eq_some_iff.mp found
  have crypted := timely.crypted (List.ne_nil_of_length_pos (Nat.zero_lt_of_lt inside))
  obtain ⟨kept, locked | ⟨state, entered, same⟩⟩ :=
    @round_spec _ thread _ now timely crypted (timely.threads _ (List.mem_of_getElem? found))
  · exact ⟨kept, fun _ => .of_locked locked⟩
  · refine ⟨kept, fun onSchedule => ?_⟩
    rw [same]
    intro open_ other isLatest
    refine onSchedule open_ other ?_
    rw [latest_setThread inside] at isLatest
    split at isLatest
    · rename_i last
      rw [latest, List.getLast?_eq_getElem?, ← last, Nat.add_sub_cancel, found]
      exact entered.symm.trans isLatest
    · exact isLatest

/-- A step keeps the schedule just where it is in time. -/
theorem step_spec (timely : s.Timely) {event : RelockEvent} (legal : event.Legal) :
    (s.step crypto event).Timely ∧ (s.OnSchedule → (event.InTime s ↔ (s.step crypto event).OnSchedule)) := by
  have others : ∀ {after : RelockState}, after.Timely ∧ (s.OnSchedule → after.OnSchedule) →
      after.Timely ∧ (s.OnSchedule → (True ↔ after.OnSchedule)) :=
    fun spec => ⟨spec.1, fun onSchedule => ⟨fun _ => spec.2 onSchedule, fun _ => trivial⟩⟩
  cases event with
  | walletpassphrase strWalletPass nSleepTime => exact others (walletpassphrase_spec timely strWalletPass legal.1)
  | walletpassphrasechange old new measured => exact others (walletpassphrasechange_spec timely old new measured)
  | walletlock => exact others (walletlock_spec timely)
  | start thread now =>
      have positive : 0 < now := legal
      rw [step]
      split
      · rename_i nSleepTime found
        have sleep : 0 ≤ nSleepTime := timely.threads _ (List.mem_of_getElem? found)
        exact others (started_spec timely found (by omega))
      · exact others ⟨timely, id⟩
  | wake thread now =>
      rw [step]
      split
      · rename_i nMyWakeTime found
        exact others (woken_spec timely found)
      · exact others ⟨timely, id⟩
  | enter thread now =>
      rw [step]
      split
      · rename_i nMyWakeTime waiting
        obtain ⟨inside, -⟩ := List.getElem?_eq_some_iff.mp waiting
        exact enterSection_spec timely (timely.crypted (List.ne_nil_of_length_pos (Nat.zero_lt_of_lt inside))) waiting
      · rename_i absent
        exact ⟨timely, fun onSchedule => ⟨fun _ => onSchedule, fun _ _ nMyWakeTime found => absurd found (absent _)⟩⟩

theorem run_concat (wallet : CryptedWallet) (events : List RelockEvent) (event : RelockEvent) :
    run crypto wallet (events ++ [event]) = (run crypto wallet events).step crypto event :=
  List.foldl_append

theorem run_timely (wallet : CryptedWallet) (events : List RelockEvent) (legal : ∀ event ∈ events, event.Legal) :
    (run crypto wallet events).Timely := by
  induction events using List.reverseRecOn with
  | nil => exact ⟨fun thread member => (List.not_mem_nil member).elim, le_rfl, fun real => absurd rfl real⟩
  | append_singleton events event ih =>
      rw [run_concat]
      refine (step_spec (ih fun other member => legal other (List.mem_append_left _ member)) ?_).1
      exact legal event (List.mem_append_right _ List.mem_cons_self)

/-- A run keeps the schedule in all of its states just if every step of it is in time. -/
theorem relock_onSchedule_iff (wallet : CryptedWallet) (events : List RelockEvent)
    (legal : ∀ event ∈ events, event.Legal) :
    (∀ before event after, events = before ++ event :: after → event.InTime (run crypto wallet before)) ↔
      ∀ before after, events = before ++ after → (run crypto wallet before).OnSchedule := by
  induction events using List.reverseRecOn with
  | nil =>
      refine ⟨fun _ before after split => ?_, fun _ before event after split => ?_⟩
      · obtain ⟨rfl, -⟩ := List.append_eq_nil_iff.mp split.symm
        intro _ other isLatest
        cases isLatest
      · cases before <;> cases split
  | append_singleton events event ih =>
      have earlier := ih fun other member => legal other (List.mem_append_left _ member)
      have timely := @run_timely crypto wallet events fun other member =>
        legal other (List.mem_append_left _ member)
      obtain ⟨-, last⟩ := @step_spec crypto _ timely _ (legal event (List.mem_append_right _ List.mem_cons_self))
      constructor
      · intro inTime before after split
        have scheduled := earlier.mp fun before event' after same => inTime before event' (after ++ [event])
          (by rw [same, List.append_assoc, List.cons_append])
        rcases List.eq_nil_or_concat after with rfl | ⟨rest, final, rfl⟩
        · rw [List.append_nil] at split
          rw [← split, run_concat]
          exact (last (scheduled events [] (List.append_nil _).symm)).mp (inTime events event [] rfl)
        · rw [List.concat_eq_append, ← List.append_assoc] at split
          exact scheduled before rest (List.append_inj' split rfl).1
      · intro scheduled before event' after split
        rcases List.eq_nil_or_concat after with rfl | ⟨rest, final, rfl⟩
        · obtain ⟨rfl, same⟩ := List.append_inj' split rfl
          obtain rfl := (List.cons.inj same).1
          refine (last (scheduled events [event] rfl)).mpr ?_
          rw [← run_concat]
          exact scheduled (events ++ [event]) [] (List.append_nil _).symm
        · rw [List.concat_eq_append, ← List.cons_append, ← List.append_assoc] at split
          exact earlier.mpr (fun before after same => scheduled before (after ++ [event]) (by rw [same, List.append_assoc]))
            before event' rest (List.append_inj' split rfl).1

section Concrete

/-- The wallet is unlocked for a thousand seconds, a change of the passphrase fails, and the wallet is unlocked for ten. -/
def staleDeadline : List RelockEvent :=
  [.walletpassphrase [1] 1000, .start 0 1, .enter 0 1, .walletpassphrasechange [2] [3] 0, .walletpassphrase [1] 10,
    .start 1 2, .enter 1 2]

theorem staleDeadline_legal : ∀ event ∈ staleDeadline, event.Legal := by
  simp [staleDeadline, RelockEvent.Legal]

theorem staleDeadline_late : ¬(run CryptedWallet.sampleCrypto CryptedWallet.lockedWallet staleDeadline).OnSchedule := by
  have state : (run CryptedWallet.sampleCrypto CryptedWallet.lockedWallet staleDeadline).wallet.isLocked = false ∧
      (run CryptedWallet.sampleCrypto CryptedWallet.lockedWallet staleDeadline).latest = some 10002 ∧
      ¬(run CryptedWallet.sampleCrypto CryptedWallet.lockedWallet staleDeadline).nWalletUnlockTime ≤ 10002 := by
    decide +kernel
  exact fun onSchedule => state.2.2 (onSchedule state.1 _ state.2.1).2

/-- Some step of that run is not in time. -/
theorem relock_onSchedule_iff_stale : ¬∀ before event after, staleDeadline = before ++ event :: after →
    event.InTime (run CryptedWallet.sampleCrypto CryptedWallet.lockedWallet before) :=
  fun inTime => staleDeadline_late
    ((relock_onSchedule_iff CryptedWallet.lockedWallet staleDeadline staleDeadline_legal).mp inTime staleDeadline []
      (List.append_nil _).symm)

/-- The wallet stays unlocked longer than the last call asked for. -/
theorem unlock_outlives_timeout :
    ¬∀ (crypto : WalletCrypto) (wallet : CryptedWallet) (events : List RelockEvent),
      (∀ event ∈ events, event.Legal) → (run crypto wallet events).OnSchedule :=
  fun claim => staleDeadline_late (claim _ _ _ staleDeadline_legal)

end Concrete

end RelockState

end InfiniteRicks
