/-! The order in which a stable sort first reads the members of a list. What the sort returns does not
depend on it, but where a member cannot be read, the first one that is tried is the one reported.

Up to 20 members are sorted by insertion. A longer list is cut into runs, stretches that are in order
as they stand or are sorted on their own, and neighbouring runs are merged. Members are named by their
places, counted from 0, and a comparison reads the later of two places first. The lists below may leave
out a place that was read before: only first reads count. -/
namespace PartyPlan.ReadOrder

/-- Compare each of `m` members from place `s` on with those before it. -/
def inTurn (s m : Nat) : List Nat :=
  if m < 2 then [] else (s + 1) :: s :: List.range' (s + 2) (m - 2)

/-- Order four members, starting with two pairs. -/
def four (s : Nat) : List Nat := [s + 1, s, s + 3, s + 2]

def eight (s : Nat) : List Nat := four s ++ four (s + 4)

/-- Sort two halves: order the first `p` members of each, then insert the others. -/
def halves (ordered : Nat → List Nat) (p s m : Nat) : List Nat :=
  ordered s ++ ordered (s + m / 2) ++ List.range' (s + p) (m / 2 - p)
    ++ List.range' (s + m / 2 + p) (m - m / 2 - p)

/-- Sort at most 32 members as two halves and merge these. -/
def block (s m : Nat) : List Nat :=
  if m < 2 then []
  else if m < 8 then inTurn s (m / 2) ++ inTurn (s + m / 2) (m - m / 2) ++ [s + m / 2, s]
  else if m < 16 then halves four 4 s m
  else halves eight 8 s m

/-- Choose the member that divides a stretch: the median of three places, each of which stands for the
median of its own eighth as long as that is long enough to choose from. -/
def sample (s m : Nat) : List Nat :=
  if m < 8 then [s]
  else sample s (m / 8) ++ sample (s + 4 * (m / 8)) (m / 8) ++ sample (s + 7 * (m / 8)) (m / 8)
termination_by m
decreasing_by all_goals omega

/-- Sort a stretch. A long one is divided first, and that reads all of it in turn. -/
def stretch (s m : Nat) : List Nat :=
  if m ≤ 32 then block s m else sample s m ++ List.range' s m

/-- Neighbouring members that are handled as one. -/
structure Run where
  start : Nat
  length : Nat
  sorted : Bool

namespace Run

/-- What is still to be read to have a run sorted. -/
def pending (r : Run) : List Nat := if r.sorted then [] else stretch r.start r.length

/-- Merge a run with the next one. Two that are both unsorted become one that is sorted later. -/
def merge (a b : Run) : Run × List Nat :=
  if a.sorted || b.sorted then
    (⟨a.start, a.length + b.length, true⟩, a.pending ++ b.pending ++ [b.start])
  else (⟨a.start, a.length + b.length, false⟩, [])

/-- Where two neighbouring runs meet in a balanced tree on `n` places: the highest bit in which their
middles differ, as parts of the whole. -/
def level (n : Nat) (a b : Run) : Nat :=
  let scale := (4611686018427387904 + n - 1) / n
  Nat.log2 ((scale * (2 * a.start + a.length)) ^^^ (scale * (2 * b.start + b.length)))

end Run

/-- How long a run has to be to be kept as it stands: half the list, at most 64, and about the square
root of a list of more than 4096. -/
def goodLength (n : Nat) : Nat :=
  if n ≤ 4096 then min (n - n / 2) 64
  else
    let k := (n.log2 + 1) / 2
    ((1 <<< k) + (n >>> k)) / 2

theorem goodLength_pos {n : Nat} (h : 0 < n) : 0 < goodLength n := by
  unfold goodLength
  split
  · omega
  · have hlog : 1 ≤ n.log2 := (Nat.le_log2 (by omega)).2 (by omega)
    have hp : 1 < 1 <<< ((n.log2 + 1) / 2) := by
      rw [Nat.one_shiftLeft]; exact Nat.one_lt_two_pow (by omega)
    exact Nat.div_pos (Nat.le_add_right_of_le hp) (by decide)

/-- How many of the `m` members from place `s` on stand in order, or in strictly falling order. Whether
the member at a place comes before the one ahead of it is told by `falls`. -/
def runLength (falls : Nat → Bool) (s m : Nat) : Nat :=
  if m < 2 then m
  else ((List.range' (s + 2) (m - 2)).takeWhile (falls · == falls (s + 1))).length + 2

/-- The run that starts at a place of a list of `n`, and what is read to find it. Where the list does
not go on well, a short list has the next 32 members sorted and a long one leaves them for later. -/
def nextRun (n : Nat) (falls : Nat → Bool) (s : Nat) : Run × List Nat :=
  let rest := n - s
  let found := runLength falls s rest
  let scanned := if goodLength n ≤ rest then inTurn s (min (found + 1) rest) else []
  if goodLength n ≤ found ∧ goodLength n ≤ rest then (⟨s, found, true⟩, scanned)
  else if n ≤ 64 then (⟨s, min 32 rest, true⟩, scanned ++ block s (min 32 rest))
  else (⟨s, min (goodLength n) rest, false⟩, scanned)

theorem nextRun_length_pos {n s : Nat} (falls : Nat → Bool) (h : s < n) :
    0 < (nextRun n falls s).1.length := by
  have hg : 0 < goodLength n := goodLength_pos (by omega)
  simp only [nextRun]
  split
  · simp only; omega
  · split <;> simp only <;> omega

def runs (n : Nat) (falls : Nat → Bool) (s : Nat) : List (Run × List Nat) :=
  if _h : s < n then
    nextRun n falls s :: runs n falls (s + (nextRun n falls s).1.length)
  else []
termination_by n - s
decreasing_by have := nextRun_length_pos falls _h; omega

/-- Merge a run with those waiting ahead of it, the nearest first, up to a level. -/
def collapse (bound : Nat) (r : Run) : List (Nat × Run) → Run × List (Nat × Run) × List Nat
  | [] => (r, [], [])
  | (l, q) :: waiting =>
    if l ≤ bound then
      let (merged, read) := q.merge r
      let (last, left, more) := collapse bound merged waiting
      (last, left, read ++ more)
    else (r, (l, q) :: waiting, [])

/-- Merge runs. A run is merged with those ahead of it once the next one is found and meets it at a
higher level, and all are merged at the end. Levels are below 64. -/
def mergeRuns (n : Nat) (last : Run) (waiting : List (Nat × Run)) : List (Run × List Nat) → List Nat
  | [] =>
    let (whole, _, read) := collapse 64 last waiting
    read ++ whole.pending
  | (next, scanned) :: rest =>
    let l := last.level n next
    let (merged, left, read) := collapse l last waiting
    scanned ++ read ++ mergeRuns n next ((l, merged) :: left) rest

/-- The places of a list of `n` members in the order in which sorting it first reads them. -/
def places (n : Nat) (falls : Nat → Bool) : List Nat :=
  if n ≤ 20 then inTurn 0 n
  else match runs n falls 0 with
    | [] => []
    | (first, scanned) :: rest => scanned ++ mergeRuns n first [] rest

end PartyPlan.ReadOrder
