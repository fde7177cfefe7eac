import MotionEntropy.Writer

namespace MotionEntropy

/-- Tables of any sizes, of which each write chooses one. -/
abbrev Pool : Type := List (Σ n, Cdf n)

namespace Pool

structure Choice where
  table : Nat
  symbol : Nat

def write (w : Writer) (pool : Pool) (c : Choice) : Except Fault (Writer × Pool) := do
  let t ← Checked.item pool c.table
  let (w, next) ← w.write t.2 c.symbol
  return (w, pool.set c.table ⟨t.1, next⟩)

def writeAll (w : Writer) (pool : Pool) (cs : List Choice) : Except Fault (Writer × Pool) :=
  cs.foldlM (fun s c => s.2.write s.1 c) (w, pool)

structure Report where
  cost : Except Fault Nat
  count : Nat
  roundedTotal : Except Fault Nat
  pool : Pool

def report (w : Writer) (pool : Pool) : Report := ⟨w.cost, w.ledger.count, w.roundedTotal, pool⟩

def step (s : Writer × Pool) (c : Choice) : Except Fault (Report × (Writer × Pool)) := do
  let s ← s.2.write s.1 c
  return (report s.1 s.2, s)

end Pool

variable {α σ ρ : Type}

def trace (step : σ → α → Except Fault (ρ × σ)) : σ → List α → List (Except Fault ρ)
  | _, [] => []
  | s, a :: rest =>
    match step s a with
    | .error f => [.error f]
    | .ok (r, s) => .ok r :: trace step s rest

end MotionEntropy
