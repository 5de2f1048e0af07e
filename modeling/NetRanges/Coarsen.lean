import NetRanges.Policy
import NetRanges.Trace

/-!
# Coarsening

Coarsening folds observed blocks into wider blocks where enough of them gather. One step
`(len, minCount)` works on the blocks of the policy's family:

* every entry gets a candidate (`candidate`): the entry itself if it is no longer than `len`,
  else its block of length `len`, narrowed while a reserved block overlaps it (to the reserved
  block's length, and at least one bit more), and given up for the entry itself once the
  narrowing reaches the entry's own length;
* the entries, stably sorted by candidate, form runs of equal candidates; a run of at least
  `minCount` entries becomes its candidate, a shorter run stays as it is;
* blocks of the other family pass through unchanged, after the rest.

In independent mode every step looks at the whole input and the outputs are concatenated. In
cascading mode each step looks at what the previous one left no longer than its length; the
longer blocks it leaves are set aside and come last.
-/

-- The zero of a sum is taken through the core instance, whatever else is in scope.
attribute [local instance (1100)] Zero.ofOfNat0

namespace NetRanges

namespace Coarsen

/-- The candidate of an entry once narrowing has reached length `k`: the entry's block of that
length unless a reserved block overlaps it. -/
def narrowFrom (e : Block) (reserved : List Block) (k : Nat) (hk : k < e.len) : Block :=
  let c := Block.containing e.first k (by have := e.len_le; simp only [Block.first]; omega)
  match reserved.find? fun r => r.overlaps c with
  | none => c
  | some r =>
    if h : e.len ≤ max r.len (k + 1) then e
    else narrowFrom e reserved (max r.len (k + 1)) (by omega)
termination_by e.len - k

/-- The block an entry would be folded into by a step of length `len`. -/
def candidate (e : Block) (len : Nat) (reserved : List Block) : Block :=
  if h : e.len ≤ len then e else narrowFrom e reserved len (by omega)

/-- Consecutive runs of pairs with equal keys, each as its key and its values in order. -/
def runs : List (Block × Block) → List (Block × List Block)
  | [] => []
  | (k, v) :: rest =>
    match runs rest with
    | (k', vs) :: more => if k = k' then (k, v :: vs) :: more else (k, [v]) :: (k', vs) :: more
    | [] => [(k, [v])]

/-- Pairs sorted by key, keeping pairs of equal keys in input order. -/
def sortByKey (ps : List (Block × Block)) : List (Block × Block) :=
  ps.mergeSort fun a b => Ord.compare a.1 b.1 != .gt

/-- One step of a policy over a list of blocks. -/
def step (p : Policy) (s : Step) (entries : List Block) : Traced (List Block) :=
  let eligible := entries.filter fun e => e.family == p.family
  let passthrough := entries.filter fun e => e.family != p.family
  let groups := runs (sortByKey (eligible.map fun e => (candidate e s.len p.reserved, e)))
  let folds := fun (g : Block × List Block) => decide (s.minCount ≤ g.2.length)
  let out := groups.flatMap fun g => if folds g then [g.1] else g.2
  let folded := groups.filter folds
  let replaced := (folded.map fun g => g.2.length).sum
  let traces := folded.map fun g =>
    (⟨.trace, .coarsening, Address.decimal g.2.length ++ " entries -> " ++ g.1.text⟩ : Note)
  let summary : Note := ⟨.debug, .coarsening, "Step /" ++ Address.decimal s.len ++ ">=" ++
    Address.decimal s.minCount ++ ": folded " ++ Address.decimal replaced ++ " of " ++
    Address.decimal entries.length ++ " entries, " ++
    Address.decimal (out.length + passthrough.length) ++ " out"⟩
  ⟨traces ++ [summary], out ++ passthrough⟩

/-- The cascade of steps: `current` is what the next step looks at, `carried` the longer
blocks set aside so far. -/
def cascade (p : Policy) : List Step → List Block → List Block → Traced (List Block)
  | [], current, carried => pure (current ++ carried)
  | s :: rest, current, carried => do
    let out ← step p s current
    cascade p rest (out.filter fun b => b.len ≤ s.len) (carried ++ out.filter fun b => s.len < b.len)

end Coarsen

def coarsen (p : Policy) (entries : List Block) : Traced (List Block) :=
  match p.mode with
  | .independent => do
    let outs ← p.steps.mapM fun s => Coarsen.step p s entries
    pure outs.flatten
  | .cascading => Coarsen.cascade p p.steps entries []

end NetRanges
