/-!
# Sorting

Rows are sorted as a standard library sorts (`sort?`): a few by insertion, more of them by
merging runs. Runs that are in order already are kept; of what is between them short
pieces are sorted at once, or long ones by partitions. Runs are merged as neighbours in a
tree that is balanced by their lengths. Elements that are equal stay as they are.

All this is one thing, the stable sort, as long as the comparison is a total preorder.
If it is none, the order that comes out is what the steps below make it, and the sort may
break off: where two halves of a short piece are merged from both ends, it is noticed if
the ends do not meet.
-/

namespace EntityFetch.Sorting

variable {α : Type} (isBelow : α → α → Bool)

/-! ### Inserting -/

/-- Sorted elements in reverse with one more: it moves past those that it is
    strictly below. -/
def insertSorted (a : α) : List α → List α
  | [] => [a]
  | b :: bs => if isBelow a b then b :: insertSorted a bs else a :: b :: bs

/-- Sorted elements with others inserted after them, one by one. -/
def insertAll (sorted as : List α) : List α :=
  (as.foldl (fun sorted a => insertSorted isBelow a sorted) sorted.reverse).reverse

/-! ### Merging -/

/-- What some steps of a merge have merged, and what is left of the two lists. -/
structure Merging (α : Type) where
  merged : List α
  left : List α
  right : List α

/-- The first steps of a merge of two lists, while both of them last. -/
def mergeSteps : Nat → List α → List α → Merging α
  | n + 1, a :: as, b :: bs =>
    if isBelow b a then
      let m := mergeSteps n (a :: as) bs
      { m with merged := b :: m.merged }
    else
      let m := mergeSteps n as (b :: bs)
      { m with merged := a :: m.merged }
  | _, as, bs => { merged := [], left := as, right := bs }

/-- Two sorted lists merged from the front. -/
def merge (as bs : List α) : List α :=
  let m := mergeSteps isBelow (as.length + bs.length) as bs
  m.merged ++ m.left ++ m.right

/-- Two sorted lists merged from the back. -/
def mergeBack (as bs : List α) : List α :=
  (merge (fun a b => isBelow b a) bs.reverse as.reverse).reverse

/-- Two sorted lists merged from the side of the shorter one. -/
def mergeRuns (as bs : List α) : List α :=
  if as.length ≤ bs.length then merge isBelow as bs else mergeBack isBelow as bs

/-- Two sorted lists merged from both ends at once, each end as far as the first list is
    long. The second one is at most one longer, so that one element at most is left. There
    is no result if one of the lists was used up from both ends. -/
def mergeBothEnds (as bs : List α) : Option (List α) :=
  let front := mergeSteps isBelow as.length as bs
  let back := mergeSteps (fun a b => isBelow b a) as.length bs.reverse as.reverse
  if as.length ≤ front.left.length + back.right.length ∧
      bs.length ≤ front.right.length + back.left.length then
    some (front.merged ++
      front.left.take (front.left.length + back.right.length - as.length) ++
      front.right.take (front.right.length + back.left.length - bs.length) ++
      back.merged.reverse)
  else none

/-! ### Short pieces -/

/-- Two elements, exchanged if the second one is below the first. -/
def inOrder (a b : α) : α × α :=
  if isBelow b a then (b, a) else (a, b)

/-- Two pairs in order as one list: the lesser of the first elements, the greater of the last
    ones and between them the other two in order. -/
def mergePairs (p q : α × α) : List α :=
  let enclose (least : α) (middle : α × α) (greatest : α) : List α :=
    [least, middle.1, middle.2, greatest]
  match isBelow q.1 p.1, isBelow q.2 p.2 with
  | false, false => enclose p.1 (inOrder isBelow p.2 q.1) q.2
  | false, true => enclose p.1 (inOrder isBelow q.1 q.2) p.2
  | true, false => enclose q.1 (inOrder isBelow p.1 p.2) q.2
  | true, true => enclose q.1 (inOrder isBelow p.1 q.2) p.2

/-- Four elements in order by five comparisons. -/
def sortFour (a b c d : α) : List α :=
  mergePairs isBelow (inOrder isBelow a b) (inOrder isBelow c d)

/-- One half of a short piece. Of a piece that is not too short the first four elements are
    sorted at once, and the others are inserted. -/
def sortHalf (isLong : Bool) (as : List α) : List α :=
  match isLong, as with
  | true, a :: b :: c :: d :: rest => insertAll isBelow (sortFour isBelow a b c d) rest
  | _, as => insertAll isBelow [] as

/-- The longest piece that is sorted at once. -/
def shortLength : Nat := 32

/-- A short piece in order. -/
def sortShort (as : List α) : Option (List α) :=
  let half := as.length / 2
  let isLong := decide (8 ≤ as.length)
  mergeBothEnds isBelow (sortHalf isBelow isLong (as.take half))
    (sortHalf isBelow isLong (as.drop half))

/-! ### Runs -/

/-- A part of a list, in order or not. -/
structure Run (α : Type) where
  elements : List α
  isSorted : Bool

/-- The elements of a run in order. -/
def Run.sorted {α : Type} (sortAll : List α → Option (List α)) (r : Run α) : Option (List α) :=
  if r.isSorted then some r.elements else sortAll r.elements

/-- How many elements go on as a run that ascends or descends to `a`. -/
def runLength (isDescending : Bool) : α → List α → Nat
  | _, [] => 0
  | a, b :: bs => if isBelow b a == isDescending then runLength isDescending b bs + 1 else 0

/-- The length of the run at the start of a list, and whether it descends. -/
def startRun : List α → Nat × Bool
  | a :: b :: bs => (runLength isBelow (isBelow b a) b bs + 2, isBelow b a)
  | as => (as.length, false)

/-- The first run of a list and what comes after it. Unless it is there already and has a
    good length, a short piece is sorted now, if the sort is eager, or a longer one later. -/
def firstRun (goodLength : Nat) (isEager : Bool) (as : List α) : Option (Run α × List α) :=
  let (n, isDescending) := startRun isBelow as
  if goodLength ≤ n then
    let run := as.take n
    some ({ elements := if isDescending then run.reverse else run, isSorted := true }, as.drop n)
  else if isEager then
    (sortShort isBelow (as.take shortLength)).map fun run =>
      ({ elements := run, isSorted := true }, as.drop shortLength)
  else some ({ elements := as.take goodLength, isSorted := false }, as.drop goodLength)

/-- A list cut into runs, of which there are at most `left`. -/
def cutRuns (goodLength : Nat) (isEager : Bool) : Nat → List α → Option (List (Run α))
  | 0, _ => some []
  | _ + 1, [] => some []
  | left + 1, as => do
    let (run, rest) ← firstRun isBelow goodLength isEager as
    return run :: (← cutRuns goodLength isEager left rest)

/-- Two neighbouring runs as one. They are merged, after what is not in order has been
    sorted, unless both can be left to be sorted together. -/
def joinTwo (sortAll : List α → Option (List α)) (scratch : Nat) (l r : Run α) :
    Option (Run α) :=
  if l.isSorted || r.isSorted || decide (scratch < l.elements.length + r.elements.length) then do
    let left ← l.sorted sortAll
    let right ← r.sorted sortAll
    return { elements := mergeRuns isBelow left right, isSorted := true }
  else some { elements := l.elements ++ r.elements, isSorted := false }

/-- The factor by which the places of a list are scaled to numbers of about 62 bits. -/
def treeScale (n : Nat) : Nat :=
  (1 <<< 62 + n - 1) / n

/-- The depth at which two neighbouring runs meet in a tree over all places: at how many
    leading bits of 64 the middles of the two, scaled, agree. -/
def treeDepth (scale left mid right : Nat) : Nat :=
  let difference := scale * (left + mid) ^^^ scale * (mid + right)
  if difference = 0 then 64 else 63 - difference.log2

/-- A run joined with those before it that meet at a depth or below, the nearest first. -/
def collapse (sortAll : List α → Option (List α)) (scratch depth : Nat) :
    List (Run α × Nat) → Run α → Option (List (Run α × Nat) × Run α)
  | [], run => some ([], run)
  | (before, d) :: stack, run =>
    if depth ≤ d then do
      collapse sortAll scratch depth stack (← joinTwo isBelow sortAll scratch before run)
    else some ((before, d) :: stack, run)

/-- All runs joined. The stack has those that wait for what comes after them, with the depths
    at which they are to be joined, and `mid` is where the next one starts. -/
def joinRuns (sortAll : List α → Option (List α)) (scratch scale : Nat) :
    List (Run α) → Nat → List (Run α × Nat) → Run α → Option (Run α)
  | [], _, stack, run => (collapse isBelow sortAll scratch 0 stack run).map Prod.snd
  | next :: runs, mid, stack, run => do
    let depth := treeDepth scale (mid - run.elements.length) mid (mid + next.elements.length)
    let (stack, run) ← collapse isBelow sortAll scratch depth stack run
    joinRuns sortAll scratch scale runs (mid + next.elements.length) ((run, depth) :: stack) next

/-- The length from which a run is kept as it is: for long lists about a square root. -/
def goodLength (n : Nat) : Nat :=
  if n ≤ 4096 then min (n - n / 2) 64
  else
    let shift := (1 + (n ||| 1).log2) / 2
    (1 <<< shift + n >>> shift) / 2

/-- A list sorted by joining its runs. -/
def sortRuns (sortAll : List α → Option (List α)) (scratch : Nat) (isEager : Bool)
    (as : List α) : Option (List α) := do
  let n := as.length
  match ← cutRuns isBelow (goodLength n) isEager n as with
  | [] => some []
  | run :: runs =>
    let joined ← joinRuns isBelow sortAll scratch (treeScale n) runs run.elements.length [] run
    joined.sorted sortAll

/-! ### Partitions -/

/-- The comparison of the elements at two places. -/
def isBelowAt (as : List α) (i j : Nat) : Bool :=
  match as[i]?, as[j]? with
  | some a, some b => isBelow a b
  | _, _ => false

/-- Which of three places has the median. -/
def medianOf (as : List α) (i j k : Nat) : Nat :=
  let isBelowSecond := isBelowAt isBelow as i j
  if isBelowSecond == isBelowAt isBelow as i k then
    if isBelowAt isBelow as j k == isBelowSecond then j else k
  else i

/-- The place of a median of medians. From each of three places on there are `n` elements. -/
def medianFrom (as : List α) (n i j k : Nat) : Nat :=
  if 8 ≤ n then
    let m := n / 8
    medianOf isBelow as (medianFrom as m i (i + m * 4) (i + m * 7))
      (medianFrom as m j (j + m * 4) (j + m * 7)) (medianFrom as m k (k + m * 4) (k + m * 7))
  else medianOf isBelow as i j k
termination_by n

/-- The place of the pivot of a list. -/
def pivotPlace (as : List α) : Nat :=
  let m := as.length / 8
  medianFrom isBelow as m 0 (m * 4) (m * 7)

/-- What goes to the left and what stays to the right of the pivot, which is at a place of its
    own and goes where it is told. -/
def partitionAt (place : Nat) (pivotGoes : Bool) (goes : α → Bool) (as : List α) :
    List α × List α :=
  let (left, right) := as.zipIdx.partition fun x => if x.2 = place then pivotGoes else goes x.1
  (left.map Prod.fst, right.map Prod.fst)

/-- A list sorted by partitions. All its elements are known not to be below `bound`. If a
    pivot is not above it, or nothing is below the pivot, what equals the pivot is done
    with. After too many partitions the runs of what is left are joined. -/
def sortParts : Nat → Option α → List α → Option (List α)
  | limit, bound, as =>
    if as.length ≤ shortLength then sortShort isBelow as
    else
      match limit with
      | 0 => sortRuns isBelow (sortShort isBelow) 0 true as
      | limit + 1 => do
        let place := pivotPlace isBelow as
        let pivot ← as[place]?
        let (left, right) := partitionAt place false (isBelow · pivot) as
        if bound.any (!isBelow · pivot) || left.isEmpty then
          let (left, right) := partitionAt place true (!isBelow pivot ·) as
          return left ++ (← sortParts limit none right)
        else
          let right ← sortParts limit (some pivot) right
          return (← sortParts limit bound left) ++ right

/-- A list sorted by partitions, of which about twice as many may be bad as halving it
    takes. -/
def sortLong (as : List α) : Option (List α) :=
  sortParts isBelow (2 * (as.length ||| 1).log2) none as

/-! ### The sort -/

/-- How many elements can be sorted without merging them: all of them, unless they would
    take too much space besides. -/
def scratchLength (n : Nat) : Nat :=
  max (n - n / 2) (min n 111111)

/-- The elements in order, unless the sort breaks off. -/
def sort? (as : List α) : Option (List α) :=
  if as.length ≤ 20 then some (insertAll isBelow [] as)
  else
    sortRuns isBelow (sortLong isBelow) (scratchLength as.length)
      (decide (as.length ≤ 2 * shortLength)) as

end EntityFetch.Sorting
