namespace ApplianceScript

/-- For each completion, the index of the completing task among those under way. A schedule that
is too short lets the first one complete. -/
abbrev Schedule := List Nat

namespace Schedule

def capacity (width : Nat) : Nat := max width 1

def pick (choice underWay : Nat) : Nat := choice % underWay

def completions (width : Nat) : Schedule → List α → List α
  | [], tasks => tasks
  | _, [] => []
  | choice :: rest, task :: tasks =>
    let index := pick choice (min (capacity width) (tasks.length + 1))
    (task :: tasks).getD index task :: completions width rest ((task :: tasks).eraseIdx index)

end Schedule

end ApplianceScript
