import ScaleTail.Lib.Runs

/-! # Reloading the effective policy -/

namespace ScaleTail.Util

def policyReloadMinDelay : Nat := 5000000000
def policyReloadMaxDelay : Nat := 15000000000

/-- A reload, with the times of the first and the last asynchronous request that it serves. -/
structure Reload where
  time : Nat
  force : Bool
  batch : Option (Nat × Nat)

/-- The loop of `watchReload`. A channel of `time.After` is the time at which it fires. -/
structure Watch where
  now : Nat
  force : Bool
  delayCh : Option Nat
  timeoutCh : Option Nat
  batch : Option (Nat × Nat)
  reloads : List Reload
  closed : Bool

namespace Watch
variable (w : Watch)

inductive Op
  | request (time : Nat) (force sync : Bool)
  | delay
  | timeout
  | close

def start : Watch := ⟨0, false, none, none, none, [], false⟩

/-- Time does not go back, and the timers fire on time. -/
def reaches (time : Nat) : Bool :=
  !w.closed && w.now ≤ time && w.delayCh.all (time ≤ ·) && w.timeoutCh.all (time ≤ ·)

def reload (time : Nat) : Watch :=
  { w with
    now := time, force := false, delayCh := none, timeoutCh := none, batch := none
    reloads := w.reloads ++ [⟨time, w.force, w.batch⟩] }

def fire (ch : Option Nat) : Option Watch := do
  let time ← ch
  if w.reaches time then return w.reload time else none

def step : Op → Option Watch
  | .request time force sync =>
    if w.reaches time then
      let w := { w with force := w.force || force }
      if sync then some (w.reload time)
      else some { w with
        now := time
        timeoutCh := if w.delayCh = none then some (time + policyReloadMinDelay) else w.timeoutCh
        delayCh := some (time + policyReloadMaxDelay)
        batch := some (w.batch.elim time (·.1), time) }
    else none
  | .delay => w.fire w.delayCh
  | .timeout => w.fire w.timeoutCh
  | .close => some { w with closed := true }

end Watch

end ScaleTail.Util
