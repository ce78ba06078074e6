import Bndl.Rmi.Slots
import Mathlib.Data.List.Sort
/-!
# Choosing the next block: `BlockManager._next_download`

Once the availability requests are sent, `_next_download` reads the answers
that arrive within `AVAILABILITY_TIMEOUT`, in the order `as_completed` yields
them, and builds the map from each locally missing index to the workers that
advertise it.  If the map is not empty it returns the first item of
`sorted(availability.items(), key=itemgetter(1), reverse=True)`; the key is the
list of advertisers itself, compared as Python compares lists.  Otherwise it
draws a missing index with `random.choice` and names the seeder as the only
candidate.

* `nextDownload_missing`: whatever is chosen is a hole of the local list.
* `nextDownload_candidates_length`: when no answer names an index twice, there
  are at most as many candidates as answers, or the seeder alone.
* `next_download_prefers_list_order`: the choice follows the list order of the
  advertisers, not their number.
-/

namespace Bndl.Rmi.NextDownload

open Bndl.Rmi.Slots

/-- `availability[idx].append(worker)` on the `defaultdict(list)`, whose keys
keep the order in which they were first added. -/
def appendAdvertiser (idx w : Nat) : List (Nat × List Nat) → List (Nat × List Nat)
  | [] => [(idx, [w])]
  | (i, ws) :: rest =>
    if i = idx then (i, ws ++ [w]) :: rest else (i, ws) :: appendAdvertiser idx w rest

/-- The loop over one answer of worker `w`.  An index past the end of the local
list raises `IndexError`, which the `except Exception` around the loop catches:
the rest of that answer is dropped. -/
def addAnswer (blocks : List (Option Block)) (w : Nat) :
    List Nat → List (Nat × List Nat) → List (Nat × List Nat)
  | [], av => av
  | idx :: rest, av =>
    match blocks[idx]? with
    | none => av
    | some none => addAnswer blocks w rest (appendAdvertiser idx w av)
    | some (some _) => addAnswer blocks w rest av

/-- The availability map, from the answers in the order they completed; an
answer `none` is a request whose `result()` raised. -/
def availability (blocks : List (Option Block)) (answers : List (Nat × Option (List Nat))) :
    List (Nat × List Nat) :=
  answers.foldl (fun av a => match a.2 with
    | none => av
    | some idxs => addAnswer blocks a.1 idxs av) []

/-- Python's `<` on two lists of peers: the first position where they differ
decides by the peers' own `<`; a proper prefix is smaller. -/
def listLt (lt : Nat → Nat → Bool) : List Nat → List Nat → Bool
  | [], [] => false
  | [], _ :: _ => true
  | _ :: _, [] => false
  | a :: as, b :: bs => if a = b then listLt lt as bs else lt a b

/-- `sorted(availability.items(), key=itemgetter(1), reverse=True)`: the stable
sort in decreasing order of the advertiser lists. -/
def sortByAvailability (lt : Nat → Nat → Bool) (av : List (Nat × List Nat)) :
    List (Nat × List Nat) :=
  av.insertionSort fun a b => !listLt lt a.2 b.2

/-- `_next_download` once the answers are in.  `peers` is the node's peer table
(`self.peers[block_spec.seeder]`), `r` the draw of `random.choice`; `none` is
an exception (`random.choice([])`, or the seeder not in the table). -/
def nextDownload (lt : Nat → Nat → Bool) (peers : List Nat) (spec : BlockSpec)
    (blocks : List (Option Block)) (answers : List (Nat × Option (List Nat))) (r : Nat) :
    Option (Nat × List Nat) :=
  let av := availability blocks answers
  if av ≠ [] then (sortByAvailability lt av).head?
  else
    match (missing blocks)[r % (missing blocks).length]? with
    | none => none
    | some idx => if spec.seeder ∈ peers then some (idx, [spec.seeder]) else none

section Missing

variable {blocks : List (Option Block)}

/-- Every key of the map is a hole of the local list. -/
def KeysMissing (blocks : List (Option Block)) (av : List (Nat × List Nat)) : Prop :=
  ∀ p ∈ av, blocks[p.1]? = some none

theorem KeysMissing.appendAdvertiser {av : List (Nat × List Nat)} (h : KeysMissing blocks av)
    {idx : Nat} (hidx : blocks[idx]? = some none) (w : Nat) :
    KeysMissing blocks (appendAdvertiser idx w av) := by
  induction av with
  | nil => simpa [NextDownload.appendAdvertiser, KeysMissing] using hidx
  | cons p rest ih =>
    obtain ⟨i, ws⟩ := p
    have hp : blocks[i]? = some none := h _ (List.mem_cons_self _ _)
    have hrest : KeysMissing blocks rest := fun q hq => h q (List.mem_cons_of_mem _ hq)
    unfold NextDownload.appendAdvertiser
    split_ifs
    · rintro q (_ | ⟨_, hq⟩)
      · exact hp
      · exact hrest q hq
    · rintro q (_ | ⟨_, hq⟩)
      · exact hp
      · exact ih hrest q hq

theorem KeysMissing.addAnswer {av : List (Nat × List Nat)} (h : KeysMissing blocks av)
    (w : Nat) (idxs : List Nat) : KeysMissing blocks (addAnswer blocks w idxs av) := by
  induction idxs generalizing av with
  | nil => exact h
  | cons idx rest ih =>
    unfold NextDownload.addAnswer
    split
    · exact h
    · exact ih (h.appendAdvertiser ‹_› w)
    · exact ih h

theorem availability_keys_missing (answers : List (Nat × Option (List Nat))) :
    KeysMissing blocks (availability blocks answers) := by
  suffices ∀ av, KeysMissing blocks av →
      KeysMissing blocks (answers.foldl (fun av a => match a.2 with
        | none => av
        | some idxs => addAnswer blocks a.1 idxs av) av) from
    this [] (by simp [KeysMissing])
  induction answers with
  | nil => exact fun _ h => h
  | cons a rest ih =>
    intro av h
    apply ih
    rcases a with ⟨w, _ | idxs⟩
    · exact h
    · exact h.addAnswer w idxs

/-- The index `_next_download` returns is missing locally. -/
theorem nextDownload_missing {lt : Nat → Nat → Bool} {peers : List Nat} {spec : BlockSpec}
    {answers : List (Nat × Option (List Nat))} {r idx : Nat} {cands : List Nat}
    (h : nextDownload lt peers spec blocks answers r = some (idx, cands)) :
    blocks[idx]? = some none := by
  simp only [nextDownload] at h
  by_cases hav : availability blocks answers = []
  · rw [if_neg (not_not.2 hav)] at h
    split at h
    · cases h
    · rename_i i hi
      split_ifs at h
      cases h
      exact mem_missing.1 (List.getElem?_mem hi)
  · rw [if_pos hav] at h
    have hmem : (idx, cands) ∈ availability blocks answers :=
      (List.perm_insertionSort _ _).mem_iff.1 (List.mem_of_mem_head? h)
    exact availability_keys_missing answers _ hmem

end Missing

section Candidates

/-- The number of advertisers the map lists under index `i`, over all its entries. -/
def advertisers : List (Nat × List Nat) → Nat → Nat
  | [], _ => 0
  | (j, ws) :: rest, i => (if j = i then ws.length else 0) + advertisers rest i

theorem advertisers_appendAdvertiser (idx w : Nat) (av : List (Nat × List Nat)) (i : Nat) :
    advertisers (appendAdvertiser idx w av) i = advertisers av i + if idx = i then 1 else 0 := by
  induction av with
  | nil => simp [NextDownload.appendAdvertiser, advertisers]
  | cons p rest ih =>
    obtain ⟨j, ws⟩ := p
    by_cases hj : j = idx
    · subst hj
      simp only [NextDownload.appendAdvertiser, if_pos rfl, advertisers, List.length_append,
        List.length_singleton]
      split_ifs <;> omega
    · simp only [NextDownload.appendAdvertiser, if_neg hj, advertisers, ih]
      omega

theorem advertisers_addAnswer (blocks : List (Option Block)) (w : Nat) (i : Nat) :
    ∀ (idxs : List Nat) (av : List (Nat × List Nat)),
      advertisers (addAnswer blocks w idxs av) i ≤ advertisers av i + idxs.count i
  | [], av => by simp [NextDownload.addAnswer]
  | idx :: rest, av => by
    have ih := advertisers_addAnswer blocks w i rest
    unfold NextDownload.addAnswer
    split
    · omega
    · have := ih (appendAdvertiser idx w av)
      rw [advertisers_appendAdvertiser] at this
      simp only [List.count_cons, beq_iff_eq]
      split_ifs at this ⊢ <;> omega
    · have := ih av
      simp only [List.count_cons]
      omega

/-- Every answer names each index at most once. -/
def AnswersNodup (answers : List (Nat × Option (List Nat))) : Prop :=
  ∀ a ∈ answers, ∀ idxs, a.2 = some idxs → idxs.Nodup

theorem advertisers_availability (blocks : List (Option Block)) (i : Nat) :
    ∀ (answers : List (Nat × Option (List Nat))) (av : List (Nat × List Nat)),
      AnswersNodup answers →
      advertisers (answers.foldl (fun av a => match a.2 with
        | none => av
        | some idxs => addAnswer blocks a.1 idxs av) av) i ≤ advertisers av i + answers.length
  | [], av, _ => by simp
  | (w, a) :: rest, av, hnd => by
    have hrest : AnswersNodup rest := fun a' ha' => hnd a' (List.mem_cons_of_mem _ ha')
    simp only [List.foldl_cons, List.length_cons]
    cases a with
    | none =>
      have := advertisers_availability blocks i rest av hrest
      dsimp only; omega
    | some idxs =>
      dsimp only
      have h₁ := advertisers_availability blocks i rest (addAnswer blocks w idxs av) hrest
      have h₂ := advertisers_addAnswer blocks w i idxs av
      have h₃ : idxs.count i ≤ 1 :=
        List.nodup_iff_count_le_one.1 (hnd _ (List.mem_cons_self _ _) idxs rfl) i
      omega

theorem length_le_advertisers {av : List (Nat × List Nat)} {i : Nat} {ws : List Nat}
    (h : (i, ws) ∈ av) : ws.length ≤ advertisers av i := by
  induction av with
  | nil => simp at h
  | cons p rest ih =>
    obtain ⟨j, vs⟩ := p
    rcases List.mem_cons.1 h with h | h
    · cases h; simp [advertisers]
    · have := ih h; simp only [advertisers]; omega

/-- With answers that name each index at most once, `_next_download` names at
most one candidate per answer, or the seeder alone. -/
theorem nextDownload_candidates_length {blocks : List (Option Block)} {lt : Nat → Nat → Bool}
    {peers : List Nat} {spec : BlockSpec} {answers : List (Nat × Option (List Nat))}
    {r idx : Nat} {cands : List Nat} (hnd : AnswersNodup answers)
    (h : nextDownload lt peers spec blocks answers r = some (idx, cands)) :
    cands.length ≤ answers.length + 1 := by
  simp only [nextDownload] at h
  by_cases hav : availability blocks answers = []
  · rw [if_neg (not_not.2 hav)] at h
    split at h
    · cases h
    · split_ifs at h
      cases h
      simp
  · rw [if_pos hav] at h
    have hmem : (idx, cands) ∈ availability blocks answers :=
      (List.perm_insertionSort _ _).mem_iff.1 (List.mem_of_mem_head? h)
    have := advertisers_availability blocks idx answers [] hnd
    have := length_le_advertisers hmem
    simp only [availability, advertisers] at *
    omega

end Candidates

/-- Two workers, `0` ranking below `1`; the local list misses both blocks.
Worker `0` answers first and advertises block `1`, worker `1` advertises both.
Block `1` has two advertisers and block `0` one, but `[1]` sorts above
`[0, 1]`, so block `0` is chosen. -/
theorem next_download_prefers_list_order :
    availability [none, none] [(0, some [1]), (1, some [0, 1])] = [(1, [0, 1]), (0, [1])] ∧
      nextDownload (fun a b => decide (a < b)) [0, 1] ⟨2, 2⟩ [none, none]
        [(0, some [1]), (1, some [0, 1])] 0 = some (0, [1]) := by
  decide

end Bndl.Rmi.NextDownload
