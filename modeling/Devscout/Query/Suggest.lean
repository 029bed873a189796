/-
# Devscout.Query.Suggest -- the names nearest to one that is not there

A name that finds nothing is answered by up to five names near it. A row of the name index is
admitted by the first of three tiers: its name holds the query, they share a token, or the two
are within two edits. The admitted rows are sorted by tier, penalty, kind bucket, file, line and
name, and one row of each name is shown.

The edit tier fills the table of distances row by row and stops at the first row that is all
above the bound; no distance within the bound is lost by that. The sort key does not tell apart
what the bucket of a kind hides: two rows of one name on one line of one file, as a TypeScript
`interface` and `class` may be, stay in the order of the index. Apart from such rows the answer
does not depend on that order.
-/

import Devscout.Lib.EditDistance
import Devscout.Lib.Leading
import Devscout.Query.Next
import Mathlib

namespace Devscout.Query.Suggest

open Lib Answers

/-! ## Bounded distance -/

def absDiff (m n : Nat) : Nat := (m - n) + (n - m)

section Distance

variable {α : Type} [DecidableEq α]

/-- The cells of a row after the first one, from the row above it. -/
def fillRow (x : α) : Nat → List Nat → List α → List Nat
  | left, diagonal :: up :: above, y :: b =>
      let cell := min (min (up + 1) (left + 1)) (diagonal + if x ≠ y then 1 else 0)
      cell :: fillRow x cell (up :: above) b
  | _, _, _ => []

/-- The loop over the rows, with the abort. -/
def distanceRows (b : List α) (max : Nat) : Nat → List Nat → List α → Nat
  | _, prev, [] => prev.getD b.length 0
  | i, prev, x :: a =>
      let cells := fillRow x i prev b
      if max < cells.foldl min i then max + 1 else distanceRows b max (i + 1) (i :: cells) a

/-- `edit_distance_within`. The texts it is given are ASCII, so a byte of theirs is a character. -/
def editDistanceWithin (a b : List α) (max : Nat) : Nat :=
  if max < absDiff a.length b.length then max + 1
  else distanceRows b max 1 (List.range (b.length + 1)) a

end Distance

/-! ## Tiers -/

def SUGGESTION_CAP : Nat := 5
def MAX_EDIT_DISTANCE : Nat := 2

/-- A token that has come to its end. -/
def flushToken (cur : Str) : List Str := if cur = [] then [] else [cur.map Char.toLower]

/-- The loop of `tokens`. A character outside ASCII separates like any other separator, whatever
its bytes are. -/
def splitTokens (cur : Str) : Str → List Str
  | [] => flushToken cur
  | c :: rest =>
      if !c.isAlphanum then flushToken cur ++ splitTokens [] rest
      -- a capital opens a token after a small letter, and before one also after a capital
      else if c.isUpper && cur.getLast?.any
          fun last => !last.isUpper || rest.head?.any Char.isLower then
        flushToken cur ++ splitTokens [c] rest
      else splitTokens (cur ++ [c]) rest

example : splitTokens [] ['a', 'B', 'c', '_', 'd'] = [['a'], ['b', 'c'], ['d']] := by decide +kernel

/-- `tokens`: the distinct ones, in the order of their first occurrence. -/
def tokens (s : Str) : List Str :=
  (splitTokens [] s).foldl (fun acc t => if t ∈ acc then acc else acc ++ [t]) []

/-- `shared_count`. -/
def sharedCount (a b : List Str) : Nat := (a.filter fun t => b.contains t).length

def isAscii (s : Str) : Bool := s.all fun c => c.toNat < 128

/-- `score_row`: the tier that admits a row, and the penalty there. -/
def scoreRow (lower : Str → Str) (row : GraphName) (query lowerQuery : Str) (queryTokens : List Str)
    (queryAscii : Bool) : Option (Nat × Nat) :=
  if lowerQuery <:+: lower row.name then some (0, absDiff row.name.length query.length)
  else
    let nameTokens := tokens row.name
    let shared := sharedCount queryTokens nameTokens
    if 0 < shared then some (1, queryTokens.length + nameTokens.length - 2 * shared)
    else if queryAscii && isAscii row.name then
      let d := editDistanceWithin lowerQuery (lower row.name) MAX_EDIT_DISTANCE
      if d ≤ MAX_EDIT_DISTANCE then some (2, d) else none
    else none

structure Scored where
  row : GraphName
  rank : Nat
  penalty : Nat
  kind : Nat
  deriving DecidableEq

/-- What the rows are sorted by. Texts compare by their bytes in UTF-8, which is by code points. -/
def Scored.key (s : Scored) : Nat ×ₗ (Nat ×ₗ (Nat ×ₗ (Str ×ₗ (Nat ×ₗ Str)))) :=
  toLex (s.rank, toLex (s.penalty, toLex (s.kind, toLex (s.row.file, toLex (s.row.line, s.row.name)))))

def Scored.name (s : Scored) : Str := s.row.name

def scoreOf (lower : Str → Str) (query : Str) (row : GraphName) : Option Scored :=
  (scoreRow lower row query (lower query) (tokens query) (isAscii query)).map fun score =>
    ⟨row, score.1, score.2, kindRank row.kind⟩

/-- The loop over the sorted rows. -/
def takeDistinct : List Scored → List Str → List GraphName → List GraphName
  | [], _, out => out
  | s :: rest, seen, out =>
      if s.row.name ∈ seen then takeDistinct rest seen out
      else if (out ++ [s.row]).length = SUGGESTION_CAP then out ++ [s.row]
      else takeDistinct rest (s.row.name :: seen) (out ++ [s.row])

/-- `did_you_mean`. -/
def didYouMean (lower : Str → Str) (names : List GraphName) (query : Str) : List GraphName :=
  if query = [] then []
  else
    let scored := names.filterMap (scoreOf lower query)
    takeDistinct (scored.insertionSort fun a b => a.key ≤ b.key) [] []

/-! ## What is suggested -/

/-- The rows that some tier admits; an empty query is put to none. -/
def admitted (lower : Str → Str) (names : List GraphName) (query : Str) : List Scored :=
  if query = [] then [] else names.filterMap (scoreOf lower query)

/-- The answer is the first five names of the admitted rows, whatever the order of the list, and
the edit tier goes by the true distance. -/
structure Exact (lower : Str → Str) (names : List GraphName) (query : Str) : Prop where
  first : ∃ rows : List Scored, rows.Perm (admitted lower names query) ∧
    (rows.Pairwise fun a b => a.key ≤ b.key) ∧
    didYouMean lower names query = (pick Scored.name SUGGESTION_CAP [] rows).map Scored.row
  anyOrder : ∀ names' : List GraphName, names'.Perm names →
    didYouMean lower names' query = didYouMean lower names query
  edits : ∀ row : GraphName, isAscii query = true → isAscii row.name = true →
    ¬lower query <:+: lower row.name → sharedCount (tokens query) (tokens row.name) = 0 →
    ∀ score, scoreRow lower row query (lower query) (tokens query) (isAscii query) = some score ↔
      levenshtein (lower query) (lower row.name) ≤ MAX_EDIT_DISTANCE ∧
        score = (2, levenshtein (lower query) (lower row.name))
  distance : ∀ (a b : Str) (max : Nat),
    (levenshtein a b ≤ max → editDistanceWithin a b max = levenshtein a b) ∧
      (max < levenshtein a b → max < editDistanceWithin a b max)

/-- Rows that the key does not tell apart are the same row, unless another row of their name comes
before them or enough names do. -/
def TiesAgree (lower : Str → Str) (names : List GraphName) (query : Str) : Prop :=
  ∀ s ∈ admitted lower names query, ∀ s' ∈ admitted lower names query, s.key = s'.key →
    Leads Scored.name Scored.key SUGGESTION_CAP (admitted lower names query) s → s.row = s'.row

instance (lower : Str → Str) (names : List GraphName) (query : Str) :
    Decidable (TiesAgree lower names query) := by
  unfold TiesAgree
  exact inferInstance

/-! ## The table of distances -/

section Distance

variable {α : Type} {f : List α → Nat} {before : List α}

/-- The values of a function at a list and at what it grows into. -/
def along (f : List α → Nat) : List α → List α → List Nat
  | before, [] => [f before]
  | before, y :: rest => f before :: along f (before ++ [y]) rest

theorem along_eq_cons (rest : List α) :
    along f before rest = f before :: (along f before rest).tail := by
  cases rest <;> rfl

theorem mem_along (rest : List α) (k : Nat) : f (before ++ rest.take k) ∈ along f before rest := by
  induction rest generalizing before k with
  | nil => simp [along]
  | cons y rest ih =>
      cases k with
      | zero => simp [along]
      | succ k =>
          have happend : before ++ (y :: rest).take (k + 1) = before ++ [y] ++ rest.take k := by simp
          rw [happend]
          exact List.mem_cons_of_mem _ (ih k)

theorem along_getD (rest : List α) : (along f before rest).getD rest.length 0 = f (before ++ rest) := by
  induction rest generalizing before with
  | nil => simp [along]
  | cons y rest ih =>
      rw [along, List.length_cons, List.getD_cons_succ, ih, List.append_assoc, List.singleton_append]

theorem range_eq_along (b : List α) : List.range (b.length + 1) = along (levenshtein []) [] b := by
  have hgen : ∀ rest before : List α,
      along (levenshtein []) before rest = List.range' before.length (rest.length + 1) := by
    intro rest
    induction rest with
    | nil => intro before; simp [along, levenshtein_nil_left]
    | cons y rest ih =>
        intro before
        rw [along, ih, levenshtein_nil_left, List.length_append, List.length_cons, List.range'_succ]
        rfl
  rw [hgen, List.range_eq_range', List.length_nil]

theorem lt_foldl_min {cells : List Nat} {i max : Nat} :
    max < cells.foldl min i ↔ max < i ∧ ∀ v ∈ cells, max < v := by
  induction cells generalizing i with
  | nil => simp
  | cons c cells ih => rw [List.foldl_cons, ih, lt_min_iff, List.forall_mem_cons, and_assoc]

variable [DecidableEq α]

/-- A row of the table holds the distances of one more element. -/
theorem fillRow_along (x : α) (p before rest : List α) :
    fillRow x (levenshtein (p ++ [x]) before) (along (levenshtein p) before rest) rest =
      (along (levenshtein (p ++ [x])) before rest).tail := by
  induction rest generalizing before with
  | nil => rfl
  | cons y rest ih =>
      rw [along, along_eq_cons, fillRow, ← levenshtein_concat_concat, ← along_eq_cons, ih]
      exact (along_eq_cons rest).symm

theorem distanceRows_spec (a b p : List α) (max : Nat) :
    (levenshtein (p ++ a) b ≤ max →
        distanceRows b max (p.length + 1) (along (levenshtein p) [] b) a = levenshtein (p ++ a) b) ∧
      (max < levenshtein (p ++ a) b →
        max < distanceRows b max (p.length + 1) (along (levenshtein p) [] b) a) := by
  induction a generalizing p with
  | nil =>
      rw [distanceRows, along_getD, List.append_nil, List.nil_append]
      exact ⟨fun _ => rfl, id⟩
  | cons x a ih =>
      have hfirst : p.length + 1 = levenshtein (p ++ [x]) [] := by
        rw [levenshtein_nil_right, List.length_append, List.length_singleton]
      have hrow : (p.length + 1) :: fillRow x (p.length + 1) (along (levenshtein p) [] b) b =
          along (levenshtein (p ++ [x])) [] b := by
        rw [hfirst, fillRow_along]
        exact (along_eq_cons b).symm
      have happend : p ++ x :: a = (p ++ [x]) ++ a := by simp
      rw [distanceRows, happend]
      split
      · rename_i habort
        -- the whole row is above the bound, and the distance is no less than one of its cells
        obtain ⟨k, -, hle⟩ := exists_take_levenshtein_le (p ++ [x]) a b
        have hall : ∀ v ∈ along (levenshtein (p ++ [x])) [] b, max < v := by
          rw [← hrow]
          exact List.forall_mem_cons.mpr (lt_foldl_min.mp habort)
        have hcell := hall _ (mem_along b k)
        rw [List.nil_append] at hcell
        exact ⟨fun h => absurd (hcell.trans_le (hle.trans h)) (lt_irrefl _),
          fun _ => Nat.lt_succ_self max⟩
      · have hnext := ih (p ++ [x])
        rw [List.length_append, List.length_singleton] at hnext
        rwa [hrow]

/-- **The bounded distance is the distance, where that is within the bound.** -/
theorem editDistanceWithin_spec (a b : List α) (max : Nat) :
    (levenshtein a b ≤ max → editDistanceWithin a b max = levenshtein a b) ∧
      (max < levenshtein a b → max < editDistanceWithin a b max) := by
  rw [editDistanceWithin]
  split
  · rename_i hlength
    have hbound := length_sub_le_levenshtein a b
    rw [absDiff] at hlength
    exact ⟨fun h => by omega, fun _ => Nat.lt_succ_self max⟩
  · rw [range_eq_along]
    exact distanceRows_spec a b [] max

theorem editDistanceWithin_le_iff (a b : List α) (max : Nat) :
    editDistanceWithin a b max ≤ max ↔ levenshtein a b ≤ max := by
  obtain ⟨hin, hout⟩ := editDistanceWithin_spec a b max
  constructor
  · intro h
    by_contra hfar
    have := hout (by omega)
    omega
  · intro h
    rw [hin h]
    exact h

/-- **Within its bound the table is a metric.** Cut off or not, it answers 0 for equal texts only; an
answer within the bound is the same from either side; and two answers within their bounds bound the
third by their sum. -/
theorem editDistanceWithin_metric (a b c : List α) (m n : Nat) :
    (editDistanceWithin a b m = 0 ↔ a = b) ∧
      (editDistanceWithin a b m ≤ m → editDistanceWithin b a m = editDistanceWithin a b m) ∧
      (editDistanceWithin a b m ≤ m → editDistanceWithin b c n ≤ n →
        editDistanceWithin a c (m + n) ≤ editDistanceWithin a b m + editDistanceWithin b c n) := by
  obtain ⟨hin, hout⟩ := editDistanceWithin_spec a b m
  refine ⟨?_, fun h => ?_, fun hab hbc => ?_⟩
  · rw [← levenshtein_eq_zero_iff]
    rcases Nat.lt_or_ge m (levenshtein a b) with hfar | hnear
    · have := hout hfar
      omega
    · rw [hin hnear]
  · have hnear := (editDistanceWithin_le_iff a b m).mp h
    rw [hin hnear, (editDistanceWithin_spec b a m).1 (levenshtein_comm a b ▸ hnear), levenshtein_comm]
  · have hnear := (editDistanceWithin_le_iff a b m).mp hab
    have hnear' := (editDistanceWithin_le_iff b c n).mp hbc
    have htriangle := levenshtein_triangle a b c
    rw [hin hnear, (editDistanceWithin_spec b c n).1 hnear',
      (editDistanceWithin_spec a c (m + n)).1 (by omega)]
    exact htriangle

end Distance

/-! ## Scores -/

section Scores

variable {lower : Str → Str} {names names' : List GraphName} {query : Str}

theorem tokens_nodup (s : Str) : (tokens s).Nodup :=
  @nodup_foldl_new Str (fun acc t => t ∈ acc) _ [] _ (fun _ _ hnot => hnot) List.nodup_nil

/-- The penalty of the token tier does not wrap around. -/
theorem two_mul_shared_le (a b : Str) :
    2 * sharedCount (tokens a) (tokens b) ≤ (tokens a).length + (tokens b).length := by
  have hleft : sharedCount (tokens a) (tokens b) ≤ (tokens a).length := List.length_filter_le _ _
  have hright : sharedCount (tokens a) (tokens b) ≤ (tokens b).length := by
    refine (((tokens_nodup a).filter _).subperm fun t ht => ?_).length_le
    simpa using (List.mem_filter.mp ht).2
  omega

/-- The edit tier. -/
theorem scoreRow_edits {row : GraphName} (hquery : isAscii query = true)
    (hname : isAscii row.name = true) (hinf : ¬lower query <:+: lower row.name)
    (hshared : sharedCount (tokens query) (tokens row.name) = 0) (score : Nat × Nat) :
    scoreRow lower row query (lower query) (tokens query) (isAscii query) = some score ↔
      levenshtein (lower query) (lower row.name) ≤ MAX_EDIT_DISTANCE ∧
        score = (2, levenshtein (lower query) (lower row.name)) := by
  have hspec := editDistanceWithin_spec (lower query) (lower row.name) MAX_EDIT_DISTANCE
  have hscore : scoreRow lower row query (lower query) (tokens query) (isAscii query) =
      if editDistanceWithin (lower query) (lower row.name) MAX_EDIT_DISTANCE ≤ MAX_EDIT_DISTANCE then
        some (2, editDistanceWithin (lower query) (lower row.name) MAX_EDIT_DISTANCE) else none := by
    rw [scoreRow, if_neg hinf]
    simp only [hshared, hquery, hname, Nat.lt_irrefl, if_false, Bool.and_self, if_true]
  rw [hscore]
  rcases Nat.lt_or_ge MAX_EDIT_DISTANCE (levenshtein (lower query) (lower row.name)) with hfar | hnear
  · rw [if_neg (Nat.not_le.mpr (hspec.2 hfar))]
    exact ⟨nofun, fun h => absurd h.1 (Nat.not_le.mpr hfar)⟩
  · rw [hspec.1 hnear, if_pos hnear, Option.some_inj]
    exact ⟨fun h => ⟨hnear, h.symm⟩, fun h => h.2.symm⟩

theorem scoreOf_row {row : GraphName} {s : Scored} (h : scoreOf lower query row = some s) :
    s.row = row := by
  obtain ⟨score, -, rfl⟩ := Option.map_eq_some_iff.mp h
  rfl

/-- A row is scored in one way. -/
theorem eq_of_row {s s' : Scored} (hs : s ∈ admitted lower names query)
    (hs' : s' ∈ admitted lower names query) (h : s.row = s'.row) : s = s' := by
  rw [admitted] at hs hs'
  split at hs
  · exact absurd hs List.not_mem_nil
  · obtain ⟨row, -, hscore⟩ := List.mem_filterMap.mp hs
    rw [if_neg ‹_›] at hs'
    obtain ⟨row', -, hscore'⟩ := List.mem_filterMap.mp hs'
    obtain rfl : row = row' := (scoreOf_row hscore).symm.trans (h.trans (scoreOf_row hscore'))
    exact Option.some.inj (hscore.symm.trans hscore')

theorem admitted_perm (h : names'.Perm names) :
    (admitted lower names' query).Perm (admitted lower names query) := by
  rw [admitted, admitted]
  split
  · exact .refl _
  · exact h.filterMap _

theorem name_of_key (s s' : Scored) (h : s.key = s'.key) : s.name = s'.name := by
  simp only [Scored.key, EmbeddingLike.apply_eq_iff_eq, Prod.mk.injEq] at h
  exact h.2.2.2.2.2

end Scores

/-! ## The answer -/

section Answer

variable {lower : Str → Str} {names names' : List GraphName} {query : Str}

/-- The loop takes the first of each name until there are five. -/
theorem takeDistinct_eq (rows : List Scored) (seen : List Str) (out : List GraphName)
    (h : out.length < SUGGESTION_CAP) : takeDistinct rows seen out =
      out ++ (pick Scored.name (SUGGESTION_CAP - out.length) seen rows).map Scored.row := by
  induction rows generalizing seen out with
  | nil =>
      obtain ⟨n, hn⟩ := Nat.exists_eq_add_one_of_ne_zero (Nat.sub_ne_zero_of_lt h)
      rw [hn, takeDistinct, pick, List.map_nil, List.append_nil]
  | cons s rows ih =>
      obtain ⟨n, hn⟩ := Nat.exists_eq_add_one_of_ne_zero (Nat.sub_ne_zero_of_lt h)
      rw [takeDistinct, hn, pick]
      by_cases hseen : s.row.name ∈ seen
      · rw [if_pos hseen, if_pos (show s.name ∈ seen from hseen), ih seen out h, hn]
      · rw [if_neg hseen, if_neg (show s.name ∉ seen from hseen), List.length_append,
          List.length_singleton]
        have hrest : n = SUGGESTION_CAP - (out ++ [s.row]).length := by
          rw [List.length_append, List.length_singleton]
          omega
        split
        · -- the fifth one
          obtain rfl : n = 0 := by omega
          rw [pick, List.map_singleton]
        · rename_i hmore
          rw [ih _ _ (by rw [List.length_append, List.length_singleton]; omega), ← hrest, List.map_cons,
            List.append_assoc, List.singleton_append]
          rfl

theorem didYouMean_eq : didYouMean lower names query =
    (leading Scored.name Scored.key SUGGESTION_CAP (admitted lower names query)).map Scored.row := by
  rw [didYouMean, admitted]
  split
  · rfl
  · rw [takeDistinct_eq _ _ _ (by decide), List.nil_append]
    rfl

/-- A row that is shown is suggested when it stands at the front of the index. -/
theorem mem_didYouMean_front {s : Scored} (h : s ∈ admitted lower names query)
    (hshown : Leads Scored.name Scored.key SUGGESTION_CAP (admitted lower names query) s) :
    ∃ names', names'.Perm names ∧
      s ∈ leading Scored.name Scored.key SUGGESTION_CAP (admitted lower names' query) := by
  have hquery : query ≠ [] := fun heq => by
    rw [admitted, if_pos heq] at h
    exact absurd h List.not_mem_nil
  have hmem := h
  rw [admitted, if_neg hquery] at hmem
  obtain ⟨row, hrow, hscore⟩ := List.mem_filterMap.mp hmem
  have hperm : (row :: names.erase row).Perm names := (List.perm_cons_erase hrow).symm
  have hfront : admitted lower (row :: names.erase row) query =
      s :: admitted lower (names.erase row) query := by
    rw [admitted, if_neg hquery, List.filterMap_cons_some hscore, admitted, if_neg hquery]
  refine ⟨_, hperm, ?_⟩
  rw [hfront]
  refine head_mem_leading name_of_key ?_
  rw [← hfront]
  exact (Leads.perm (admitted_perm hperm)).mpr hshown

/-- **The answer is exact where no tie is shown.** -/
theorem exact_iff (lower : Str → Str) (names : List GraphName) (query : Str) :
    Exact lower names query ↔ TiesAgree lower names query := by
  constructor
  · intro h s hs s' hs' hkey hshown
    -- each of the two is suggested in some order of the index, so both are in the one answer
    have hsame : ∀ t ∈ admitted lower names query,
        Leads Scored.name Scored.key SUGGESTION_CAP (admitted lower names query) t →
        t ∈ leading Scored.name Scored.key SUGGESTION_CAP (admitted lower names query) := by
      intro t ht htshown
      obtain ⟨names', hperm, hlead⟩ := mem_didYouMean_front ht htshown
      have hrow : t.row ∈ didYouMean lower names' query := by
        rw [didYouMean_eq]
        exact List.mem_map_of_mem hlead
      rw [h.anyOrder names' hperm, didYouMean_eq] at hrow
      obtain ⟨u, hu, heq⟩ := List.mem_map.mp hrow
      exact eq_of_row (mem_of_mem_leading hu) ht heq ▸ hu
    have hboth := hsame s' hs' (hshown.congr name_of_key hkey)
    have hnames :=
      leading_labels_nodup Scored.name Scored.key SUGGESTION_CAP (admitted lower names query)
    exact congrArg Scored.row
      (List.inj_on_of_nodup_map hnames (hsame s hs hshown) hboth (name_of_key s s' hkey))
  · intro h
    refine ⟨⟨_, List.perm_insertionSort _ _, sorted_insertionSort Scored.key _, didYouMean_eq⟩,
      fun names' hperm => ?_, fun row hquery hname hinf hshared score =>
        scoreRow_edits hquery hname hinf hshared score, editDistanceWithin_spec⟩
    rw [didYouMean_eq, didYouMean_eq]
    refine congrArg (List.map Scored.row) (leading_perm name_of_key ?_ (admitted_perm hperm))
    exact fun s hs s' hs' hkey hshown => eq_of_row hs hs' (h s hs s' hs' hkey hshown)

/-- **Two declarations of one name on one line.** Which of them is suggested is up to the order of
the index. -/
theorem sameLine_swaps : ¬∀ (lower : Str → Str) (names : List GraphName) (query : Str),
    Exact lower names query := by
  intro h
  let first : GraphName := ⟨"Foo".toList, "interface".toList, [], "a.ts".toList, 1⟩
  let second : GraphName := ⟨"Foo".toList, "class".toList, [], "a.ts".toList, 1⟩
  have hswap := (h (List.map Char.toLower) [first, second] "Fo".toList).anyOrder [second, first]
    (List.Perm.swap _ _ _)
  exact absurd hswap (by decide +kernel)

end Answer

end Devscout.Query.Suggest
