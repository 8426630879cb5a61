import Lisplet.Function.Call

/-!
Functions applied to all elements of a collection: `map`, `filter` and `reduce`. Each evaluates its
function form once, then its collection forms, and visits the elements in order up to the first
failure.
-/

namespace Lisplet

/-- The rows of a table that is given by its columns, as many as the shortest column has. -/
def rows : List (List α) → List (List α)
  | [] => []
  | [column] => column.map ([·])
  | column :: columns => List.zipWith (· :: ·) column (rows columns)

def shortest (columns : List (List α)) : Nat := (columns.map List.length).min?.getD 0

/-- The elements at one place of all columns, in the order of the columns. -/
def rowAt (columns : List (List α)) (i : Nat) : List α := columns.filterMap (·[i]?)

theorem shortest_singleton (column : List α) : shortest [column] = column.length := rfl

theorem shortest_cons (column : List α) {columns : List (List α)} (h : columns ≠ []) :
    shortest (column :: columns) = min column.length (shortest columns) := by
  obtain ⟨c, cs, rfl⟩ := List.exists_cons_of_ne_nil h
  simp [shortest, List.min?_cons]

theorem shortest_le_length {columns : List (List α)} (h : column ∈ columns) :
    shortest columns ≤ column.length :=
  List.min?_getD_le_of_mem (List.mem_map_of_mem h)

theorem rowAt_cons {column : List α} (h : i < column.length) (columns : List (List α)) :
    rowAt (column :: columns) i = column[i] :: rowAt columns i :=
  List.filterMap_cons_some (List.getElem?_eq_getElem h)

/-- Up to the end of the shortest column no column is left out of a row. -/
theorem map_some_rowAt {columns : List (List α)} (h : i < shortest columns) :
    (rowAt columns i).map some = columns.map (·[i]?) := by
  have hlt : ∀ column ∈ columns, i < column.length := fun column hc =>
    Nat.lt_of_lt_of_le h (shortest_le_length hc)
  clear h
  induction columns with
  | nil => rfl
  | cons column columns ih =>
    have hi : i < column.length := hlt column List.mem_cons_self
    rw [rowAt_cons hi, List.map_cons, List.map_cons, List.getElem?_eq_getElem hi,
      ih fun c hc => hlt c (List.mem_cons_of_mem _ hc)]

theorem length_rows {columns : List (List α)} (h : columns ≠ []) :
    (rows columns).length = shortest columns := by
  fun_induction rows columns with
  | case1 => exact absurd rfl h
  | case2 column => rw [List.length_map, shortest_singleton]
  | case3 column columns hcolumns ih =>
    rw [List.length_zipWith, ih hcolumns, shortest_cons column hcolumns]

theorem getElem_rows {columns : List (List α)} (h : i < (rows columns).length) :
    (rows columns)[i] = rowAt columns i := by
  fun_induction rows columns with
  | case1 => cases h
  | case2 column =>
    rw [List.length_map] at h
    rw [List.getElem_map, rowAt_cons h]
    rfl
  | case3 column columns hcolumns ih =>
    rw [List.length_zipWith, Nat.lt_min] at h
    rw [List.getElem_zipWith, ih h.2, rowAt_cons h.1]

theorem rows_eq_map_rowAt {columns : List (List α)} (h : columns ≠ []) :
    rows columns = (List.range (shortest columns)).map (rowAt columns) := by
  refine List.ext_getElem (by simp [length_rows h]) fun i hi _ => ?_
  rw [getElem_rows hi, List.getElem_map, List.getElem_range]

/-- The elements that pass a test, which is made on one after the other. -/
def keepIf (test : α → Action Bool) : List α → Action (List α)
  | [] => return []
  | x :: xs => do
    let passes ← test x
    let kept ← keepIf test xs
    return if passes then x :: kept else kept

namespace Context

/-- `(map f c ...)`: the results of calling `f` with the first elements of all collections, with the
second ones, and so on to the end of the shortest. A single collection is walked as it is. -/
def evalMap (ctx : Context) : List Value → Action Value
  | [function, collection] => do
    let f ← ctx.evalFunction function
    let xs ← ctx.evalElements "map" collection
    return .list (← xs.mapM fun x => ctx.invoke f [x])
  | function :: collection :: collections => do
    let f ← ctx.evalFunction function
    let columns ← (collection :: collections).mapM (ctx.evalElements "map")
    return .list (← (rows columns).mapM (ctx.invoke f))
  | forms => .raise (.arityAtLeast "map" 2 forms.length)

/-- A single collection is a table with one column. -/
theorem evalMap_cons_cons (ctx : Context) (function collection : Value)
    (collections : List Value) :
    ctx.evalMap (function :: collection :: collections) = (do
      let f ← ctx.evalFunction function
      let columns ← (collection :: collections).mapM (ctx.evalElements "map")
      return .list (← (rows columns).mapM (ctx.invoke f))) := by
  cases collections with
  | nil => simp [evalMap, rows, List.mapM_map, Function.comp_def]
  | cons => rfl

/-- `(filter p c)`: the elements for which `p` is true. -/
def evalFilter (ctx : Context) : List Value → Action Value
  | [predicate, collection] => do
    let p ← ctx.evalFunction predicate
    let xs ← ctx.evalElements "filter" collection
    return .list (← keepIf (fun x => Value.isTruthy <$> ctx.invoke p [x]) xs)
  | forms =>
    if forms.length < 2 then .raise (.arityAtLeast "filter" 2 forms.length)
    else .raise (.arityExactly "filter" 2 forms.length)

/-- Calls `f` with what there is so far and the next element, for one element after the other. -/
def fold (ctx : Context) (f : Value) (seed : Value) (xs : List Value) : Action Value :=
  xs.foldlM (fun acc x => ctx.invoke f [acc, x]) seed

/-- `(reduce f c)` and `(reduce f seed c)`: a fold from the left. The elements are there before the
seed is evaluated; without a seed form the first of them is the seed. -/
def evalReduce (ctx : Context) : List Value → Action Value
  | [function, collection] => do
    let f ← ctx.evalFunction function
    match ← ctx.evalElements "reduce" collection with
    | [] => .raise .emptyReduce
    | x :: xs => ctx.fold f x xs
  | [function, seed, collection] => do
    let f ← ctx.evalFunction function
    let xs ← ctx.evalElements "reduce" collection
    ctx.fold f (← ctx.eval seed) xs
  | forms =>
    if forms.length < 2 then .raise (.arityAtLeast "reduce" 2 forms.length)
    else .raise (.arityRange "reduce" 2 3 forms.length)

end Context

end Lisplet
