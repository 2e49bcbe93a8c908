namespace PropertyGraph

/-- What one step of a sequence does: it ends, it works without producing anything, or it
produces an item. -/
inductive Step (α σ : Type) where
  | done
  | skip (rest : σ)
  | yield (item : α) (rest : σ)

/-- A lazy sequence of items, read against an environment that may change between two steps.
A sequence does nothing until it is driven, and a step takes at most one item from its source. -/
inductive Seq (ε α : Type) where
  /-- Items by their position; the source ends at the first position without an item. -/
  | source (item? : Nat → Option α) (position : Nat)
  | filterMap (f : ε → α → Option α) (rest : Seq ε α)
  | limit (left : Nat) (rest : Seq ε α)
  /-- Drops an item that is the same as one that was kept. -/
  | distinct (same : α → α → Bool) (kept : List α) (rest : Seq ε α)
  /-- Each item stands for a sequence, which is made when the item is reached. -/
  | flatten (expand : ε → α → Seq ε α) (rest : Seq ε α)
  /-- A flattened sequence that is inside one of its inner sequences. -/
  | inside (inner : Seq ε α) (expand : ε → α → Seq ε α) (rest : Seq ε α)

namespace Seq

variable {ε α κ : Type}

def ofList (items : List α) : Seq ε α := source (fun n => items[n]?) 0

def empty : Seq ε α := ofList []

def once (item : α) : Seq ε α := ofList [item]

def filter (keep : ε → α → Bool) (s : Seq ε α) : Seq ε α :=
  filterMap (fun e a => if keep e a then some a else none) s

def map (f : ε → α → α) (s : Seq ε α) : Seq ε α := filterMap (fun e a => some (f e a)) s

/-- Drops an item whose key an earlier item had. -/
def uniqueBy [DecidableEq κ] (key : α → κ) (s : Seq ε α) : Seq ε α :=
  distinct (fun a b => decide (key a = key b)) [] s

/-- One step. A limit that has let all its items through ends without asking its source. -/
def step (e : ε) : Seq ε α → Step α (Seq ε α)
  | source item? n =>
    match item? n with
    | none => .done
    | some a => .yield a (source item? (n + 1))
  | filterMap f rest =>
    match step e rest with
    | .done => .done
    | .skip rest => .skip (filterMap f rest)
    | .yield a rest =>
      match f e a with
      | none => .skip (filterMap f rest)
      | some b => .yield b (filterMap f rest)
  | limit 0 _ => .done
  | limit (n + 1) rest =>
    match step e rest with
    | .done => .done
    | .skip rest => .skip (limit (n + 1) rest)
    | .yield a rest => .yield a (limit n rest)
  | distinct same kept rest =>
    match step e rest with
    | .done => .done
    | .skip rest => .skip (distinct same kept rest)
    | .yield a rest =>
      if kept.any (same a) then .skip (distinct same kept rest)
      else .yield a (distinct same (a :: kept) rest)
  | flatten expand rest =>
    match step e rest with
    | .done => .done
    | .skip rest => .skip (flatten expand rest)
    | .yield a rest => .skip (inside (expand e a) expand rest)
  | inside inner expand rest =>
    match step e inner with
    | .done => .skip (flatten expand rest)
    | .skip inner => .skip (inside inner expand rest)
    | .yield a inner => .yield a (inside inner expand rest)

/-- The number of items taken from the source so far. -/
def pulled : Seq ε α → Nat
  | source _ n => n
  | filterMap _ rest => rest.pulled
  | limit _ rest => rest.pulled
  | distinct _ _ rest => rest.pulled
  | flatten _ rest => rest.pulled
  | inside _ _ rest => rest.pulled

/-- The outcome of driving a sequence to its next item. At the end it stays as it is. -/
inductive Pull (ε α : Type) where
  | item (a : α) (rest : Seq ε α)
  | ended (rest : Seq ε α)
  | outOfFuel (rest : Seq ε α)

/-- Drives the sequence until it produces an item or ends, for at most `fuel` steps. -/
def next (e : ε) : Nat → Seq ε α → Pull ε α
  | 0, s => .outOfFuel s
  | fuel + 1, s =>
    match s.step e with
    | .done => .ended s
    | .skip rest => next e fuel rest
    | .yield a rest => .item a rest

/-- The next items, at most `count` of them, and the sequence behind them. -/
def take (e : ε) (fuel : Nat) : Nat → Seq ε α → List α × Seq ε α
  | 0, s => ([], s)
  | count + 1, s =>
    match s.next e fuel with
    | .item a rest =>
      let (items, rest) := take e fuel count rest
      (a :: items, rest)
    | .ended rest => ([], rest)
    | .outOfFuel rest => ([], rest)

end Seq

end PropertyGraph
