import Mathlib.Data.Rat.Floor
/-!
# The Cassandra scan: paging and `itake`

`CassandraScanPartition._materialize` queries its token ranges one after the
other.  It issues the first query up front.  Then, for each range, it walks the
pages of the result: it starts fetching the next page, or on the last page
issues the next range's query, before it yields the current page's rows.  A
range's result is modelled by its pages as the driver returns them (`Paging`),
and a run by the events it produces (`Event`).
`materialize_yields_all_pages`: the pages yielded are all pages of all ranges,
in range and page order, and there is one query per range, in order.

`CassandraScanDataset.itake` wraps an uncached scan without a limit in
`limit(num)` and calls `itake` again, expecting `_limit` to be set now.  But
`int(num)` may be `0`, which Python takes as no limit (`itake_limit_recursion`).
`Dataset._with` and `Dataset.itake` are not in the sources; `_with` is taken as
the copy with one attribute replaced, keeping the copy uncached.
-/

namespace Bndl.Compute.Cassandra

/-! ## `_materialize` -/

section Materialize

variable {TR Row : Type}

/-- The pages of one token range's result, in order.  A query returns at least
one page, which may be empty. -/
structure Paging (Row : Type) where
  first : List Row
  more : List (List Row)

def Paging.pages (p : Paging Row) : List (List Row) := p.first :: p.more

/-- What `_materialize` does, in order. -/
inductive Event (TR Row : Type) where
  /-- `session.execute_async(query, token_range)`. -/
  | query (tr : TR)
  /-- `resultset.response_future.start_fetching_next_page()`. -/
  | fetchNextPage
  /-- `yield from resultset.current_rows`. -/
  | rows (page : List Row)

def Event.page? : Event TR Row → Option (List Row)
  | .rows page => some page
  | _ => none

def Event.query? : Event TR Row → Option TR
  | .query tr => some tr
  | _ => none

/-- The `while True:` loop over the pages of `resultset`, whose current page is
`cur` and whose later pages are `more`; `next_tr` is `none` for the final `None`
(a token range, a pair, is always true).  It returns the events and the range
whose query `next_rs` holds when the loop breaks. -/
def pageLoop (nextTr : Option TR) (nextRs : TR) :
    List Row → List (List Row) → List (Event TR Row) × TR
  | cur, [] =>
    match nextTr with
    | some tr => ([.query tr, .rows cur], tr)
    | none => ([.rows cur], nextRs)
  | cur, page :: more =>
    let r := pageLoop nextTr nextRs page more
    (.fetchNextPage :: .rows cur :: r.1, r.2)

/-- The loop `for next_tr in self.token_ranges[1:] + [None]:`, with `next_rs`
the query of range `nextRs`; `resultset = next_rs.result()` is its paging. -/
def rangeLoop (paging : TR → Paging Row) (nextRs : TR) :
    List (Option TR) → List (Event TR Row)
  | [] => []
  | nextTr :: rest =>
    let r := pageLoop nextTr nextRs (paging nextRs).first (paging nextRs).more
    r.1 ++ rangeLoop paging r.2 rest

/-- `CassandraScanPartition._materialize`; `none` without token ranges, where
`self.token_ranges[0]` raises. -/
def materialize (paging : TR → Paging Row) : List TR → Option (List (Event TR Row))
  | [] => none
  | tr :: trs => some (.query tr :: rangeLoop paging tr (trs.map some ++ [none]))

/-- One result set: its pages are yielded, the query of `next_tr` is issued if
there is one, and `next_rs` is left on it. -/
theorem pageLoop_spec (nextTr : Option TR) (nextRs : TR) : ∀ (cur : List Row) more,
    (pageLoop nextTr nextRs cur more).1.filterMap Event.page? = cur :: more ∧
      (pageLoop nextTr nextRs cur more).1.filterMap Event.query? = nextTr.toList ∧
      (pageLoop nextTr nextRs cur more).2 = nextTr.getD nextRs
  | cur, [] => by cases nextTr <;> simp [pageLoop, Event.page?, Event.query?]
  | cur, page :: more => by
    obtain ⟨h₁, h₂, h₃⟩ := pageLoop_spec nextTr nextRs page more
    simp [pageLoop, Event.page?, Event.query?, h₁, h₂, h₃]

theorem rangeLoop_spec (paging : TR → Paging Row) : ∀ (trs : List TR) (tr : TR),
    (rangeLoop paging tr (trs.map some ++ [none])).filterMap Event.page? =
        (tr :: trs).flatMap (fun t => (paging t).pages) ∧
      (rangeLoop paging tr (trs.map some ++ [none])).filterMap Event.query? = trs
  | [], tr => by
    obtain ⟨h₁, h₂, -⟩ := pageLoop_spec none tr (paging tr).first (paging tr).more
    simp [rangeLoop, h₁, h₂, Paging.pages]
  | t :: trs, tr => by
    obtain ⟨h₁, h₂, h₃⟩ := pageLoop_spec (some t) tr (paging tr).first (paging tr).more
    obtain ⟨ih₁, ih₂⟩ := rangeLoop_spec paging trs t
    simp only [Option.getD_some] at h₃
    simp [rangeLoop, h₁, h₂, h₃, ih₁, ih₂, Paging.pages]

end Materialize

/-- For every non-empty list of token ranges and every paging of their results,
`_materialize` yields the pages of all ranges, concatenated in range and page
order, so each row once, and issues one query per range, in order. -/
theorem materialize_yields_all_pages {TR Row : Type} (paging : TR → Paging Row) (tr : TR)
    (trs : List TR) :
    ∃ evs, materialize paging (tr :: trs) = some evs ∧
      evs.filterMap Event.page? = (tr :: trs).flatMap (fun t => (paging t).pages) ∧
      evs.filterMap Event.query? = tr :: trs := by
  obtain ⟨h₁, h₂⟩ := rangeLoop_spec paging trs tr
  exact ⟨_, rfl, by simpa [Event.page?] using h₁, by simpa [Event.query?] using h₂⟩

/-! ## `itake` and `limit` -/

/-- What `limit` and `itake` read of a `CassandraScanDataset`: whether it is
cached, and `self._limit`. -/
structure ScanDataset where
  cached : Bool
  /-- `self._limit`: `None`, or the `int(num)` of a `limit(num)`. -/
  rowLimit : Option Int

/-- Python's `int(num)` of a number: rounded toward zero. -/
def pyInt (q : ℚ) : Int := if 0 ≤ q then ⌊q⌋ else ⌈q⌉

namespace ScanDataset

/-- The truth value of `self._limit`. -/
def limited (d : ScanDataset) : Bool :=
  match d.rowLimit with
  | none => false
  | some n => n ≠ 0

/-- `limit(num)`: `self._with('_limit', int(num))`. -/
def limit (d : ScanDataset) (num : ℚ) : ScanDataset := { d with rowLimit := some (pyInt num) }

/-- `itake(num)`, within `depth` nested calls: the dataset whose
`Dataset.itake` it reaches, or `none` once the calls nest deeper (Python's
recursion limit). -/
def itake : Nat → ScanDataset → ℚ → Option ScanDataset
  | 0, _, _ => none
  | depth + 1, d, num =>
    if !d.cached && !d.limited then itake depth (d.limit num) num else some d

/-- With `int(num) = 0`, an uncached scan with no limit in force wraps itself in
`limit(num)` again and again. -/
theorem itake_of_pyInt_eq_zero {num : ℚ} (h : pyInt num = 0) :
    ∀ depth (d : ScanDataset), d.cached = false → d.limited = false → d.itake depth num = none
  | 0, _, _, _ => rfl
  | depth + 1, d, hc, hl => by
    rw [itake, hc, hl]
    exact itake_of_pyInt_eq_zero h depth _ hc (by simp [limit, limited, h])

end ScanDataset

/-- For an uncached scan without a limit, `itake(num)` reaches `Dataset.itake` on
`limit(num)` after one wrapping when `int(num) ≠ 0`; when `int(num) = 0`, as for
`take(0)`, the calls `itake → limit → itake` never end. -/
theorem itake_limit_recursion :
    (∀ d : ScanDataset, d.cached = false → d.rowLimit = none → ∀ num : ℚ,
      (pyInt num ≠ 0 → ∀ depth, d.itake (depth + 2) num = some (d.limit num)) ∧
      (pyInt num = 0 → ∀ depth, d.itake depth num = none)) ∧
    pyInt 0 = 0 := by
  refine ⟨fun d hc hl num => ⟨fun h depth => ?_, fun h depth =>
    ScanDataset.itake_of_pyInt_eq_zero h depth d hc (by simp [ScanDataset.limited, hl])⟩,
    by simp [pyInt]⟩
  simp [ScanDataset.itake, ScanDataset.limited, ScanDataset.limit, hc, hl, h]

end Bndl.Compute.Cassandra
