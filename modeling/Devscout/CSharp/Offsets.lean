/-
# Devscout.CSharp.Offsets -- the pre-pass over byte offsets

The pass does not cut its source into lists: it indexes bytes, slices ranges and
overwrites a range of a copy, and an index or a slice out of range ends the process. Here
the same steps are taken by offset, with every access checked, and each comes to what the
pass over lists does. So no access is ever out of range, and the copy that is written is
text again: only whole characters are overwritten, and by spaces.
-/

import Devscout.CSharp.Blanking

namespace Devscout.Preproc

open Lib

/-! ## Checked accesses -/

/-- `bytes[start..stop]`; `none` when it is out of range. -/
def slice (bytes : Bytes) (start stop : Nat) : Option Bytes :=
  if start ≤ stop ∧ stop ≤ bytes.length then some ((bytes.take stop).drop start) else none

theorem slice_eq {bytes : Bytes} {start stop : Nat} (h : start ≤ stop) (h' : stop ≤ bytes.length) :
    slice bytes start stop = some ((bytes.drop start).take (stop - start)) := by
  unfold slice
  rw [if_pos ⟨h, h'⟩, List.drop_take]

theorem drop_eq_cons_of_lt {bytes : Bytes} {i : Nat} (h : i < bytes.length) :
    ∃ b, bytes[i]? = some b ∧ bytes.drop i = b :: bytes.drop (i + 1) :=
  ⟨bytes[i], List.getElem?_eq_getElem h, List.drop_eq_getElem_cons h⟩

/-- `while i < n && p(line[i]) { i += 1 }`; `none` when it has not ended in time. -/
def skipWhile (p : UInt8 → Bool) (content : Bytes) : Nat → Nat → Option Nat
  | 0, i => if i < content.length then none else some i
  | fuel + 1, i =>
      if i < content.length then do
        let b ← content[i]?
        if p b then skipWhile p content fuel (i + 1) else some i
      else some i

theorem skipWhile_eq {p : UInt8 → Bool} {content : Bytes} {fuel i : Nat}
    (h : content.length ≤ i + fuel) :
    skipWhile p content fuel i = some (i + ((content.drop i).takeWhile p).length) := by
  induction fuel generalizing i with
  | zero =>
      rw [skipWhile, if_neg (by omega), List.drop_eq_nil_of_le (by omega)]
      rfl
  | succ fuel ih =>
      rw [skipWhile]
      by_cases hi : i < content.length
      · obtain ⟨b, hb, hdrop⟩ := drop_eq_cons_of_lt hi
        rw [if_pos hi, hb, hdrop, List.takeWhile_cons]
        dsimp only [bind, Option.bind]
        split
        · rw [ih (by omega), List.length_cons]
          congr 1
          omega
        · rfl
      · rw [if_neg hi, List.drop_eq_nil_of_le (by omega)]
        rfl

theorem drop_length_takeWhile (p : UInt8 → Bool) (bytes : Bytes) :
    bytes.drop (bytes.takeWhile p).length = bytes.dropWhile p := by
  induction bytes with
  | nil => rfl
  | cons b bytes ih =>
      rw [List.takeWhile_cons, List.dropWhile_cons]
      split
      · rw [List.length_cons, List.drop_succ_cons, ih]
      · rfl

theorem length_takeWhile_le (p : UInt8 → Bool) (bytes : Bytes) :
    (bytes.takeWhile p).length ≤ bytes.length :=
  (List.takeWhile_prefix p).length_le

/-- Where a skip ends, and what is left there. -/
theorem drop_skipped (p : UInt8 → Bool) (content : Bytes) (i : Nat) :
    content.drop (i + ((content.drop i).takeWhile p).length) = (content.drop i).dropWhile p := by
  rw [← List.drop_drop, drop_length_takeWhile]

/-! ## Directives -/

/-- The end of the identifier at `start`, `start` itself when there is none. -/
def identEndAt (content : Bytes) (start : Nat) : Option Nat :=
  if start < content.length then do
    let c ← content[start]?
    if isAsciiIdentStart c then skipWhile isAsciiIdentContinue content content.length (start + 1)
    else some start
  else some start

/-- `parse_directive`, by offset. -/
def parseDirectiveAt (content : Bytes) (isFirstLine : Bool) : Option (Option DirectiveLine) := do
  let hash ← skipWhile isBlank content content.length
    (if isFirstLine && byteOrderMark.isPrefixOf content then 3 else 0)
  if content.length ≤ hash then some none
  else do
    let b ← content[hash]?
    if b == byte '#' then do
      let start ← skipWhile isBlank content content.length (hash + 1)
      let stop ← identEndAt content start
      let keyword ← slice content start stop
      let rest ← slice content stop content.length
      some (some ⟨keyword, rest⟩)
    else some none

theorem identEndAt_eq (content : Bytes) (start : Nat) (h : start ≤ content.length) :
    ∃ stop, identEndAt content start = some stop ∧ start ≤ stop ∧ stop ≤ content.length ∧
      (content.drop start).take (stop - start) = (takeIdent (content.drop start)).1 ∧
      content.drop stop = (takeIdent (content.drop start)).2 := by
  unfold identEndAt
  by_cases hlt : start < content.length
  · obtain ⟨c, hc, hdrop⟩ := drop_eq_cons_of_lt hlt
    rw [if_pos hlt, hc, hdrop]
    dsimp only [bind, Option.bind, takeIdent]
    by_cases hident : isAsciiIdentStart c = true
    · have hlength := length_takeWhile_le isAsciiIdentContinue (content.drop (start + 1))
      rw [List.length_drop] at hlength
      rw [if_pos hident, skipWhile_eq (by omega)]
      refine ⟨_, rfl, by omega, by omega, ?_, ?_⟩
      · have hlen : start + 1 + ((content.drop (start + 1)).takeWhile isAsciiIdentContinue).length - start =
            ((content.drop (start + 1)).takeWhile isAsciiIdentContinue).length + 1 := by omega
        rw [if_pos hident, hlen, List.take_succ_cons]
        congr 1
        exact (List.prefix_iff_eq_take.mp (List.takeWhile_prefix isAsciiIdentContinue)).symm
      · rw [if_pos hident, drop_skipped]
    · rw [if_neg hident, if_neg hident]
      exact ⟨start, rfl, Nat.le_refl _, h, by rw [Nat.sub_self]; rfl, hdrop⟩
  · rw [if_neg hlt, List.drop_eq_nil_of_le (by omega)]
    exact ⟨start, rfl, Nat.le_refl _, h, by rw [Nat.sub_self]; rfl,
      List.drop_eq_nil_of_le (by omega)⟩

theorem parseDirectiveAt_eq (content : Bytes) (isFirstLine : Bool) :
    parseDirectiveAt content isFirstLine = some (parseDirective content isFirstLine) := by
  have hstart : (if isFirstLine && byteOrderMark.isPrefixOf content then content.drop 3 else content) =
      content.drop (if isFirstLine && byteOrderMark.isPrefixOf content then 3 else 0) := by
    split <;> rfl
  unfold parseDirectiveAt parseDirective
  generalize (if isFirstLine && byteOrderMark.isPrefixOf content then 3 else 0) = start at hstart ⊢
  rw [skipWhile_eq (by omega)]
  dsimp only [bind, Option.bind]
  rw [hstart, ← drop_skipped]
  generalize start + ((content.drop start).takeWhile isBlank).length = hash
  by_cases hhash : content.length ≤ hash
  · rw [if_pos hhash, List.drop_eq_nil_of_le hhash]
  · obtain ⟨b, hb, hdrop⟩ := drop_eq_cons_of_lt (Nat.lt_of_not_le hhash)
    rw [if_neg hhash, hb, hdrop]
    dsimp only
    by_cases hb' : (b == byte '#') = true
    · have hlength := length_takeWhile_le isBlank (content.drop (hash + 1))
      rw [List.length_drop] at hlength
      rw [if_pos hb', if_pos hb', skipWhile_eq (by omega)]
      dsimp only
      obtain ⟨stop, hstop, hle, hle', hkeyword, hrest⟩ := identEndAt_eq content
        (hash + 1 + ((content.drop (hash + 1)).takeWhile isBlank).length) (by omega)
      rw [hstop]
      dsimp only
      rw [slice_eq hle hle', slice_eq hle' (Nat.le_refl _)]
      dsimp only
      rw [hkeyword, hrest, List.take_of_length_le (by rw [← hrest, List.length_drop]), drop_skipped]
    · rw [if_neg hb', if_neg hb']

/-! ## The tracker -/

/-- The loop over a string or character literal: `content[i]` is the byte after its opening
delimiter. -/
def literalAt (content : Bytes) (delim : UInt8) : Nat → Nat → Option Nat
  | 0, i => if i < content.length then none else some i
  | fuel + 1, i =>
      if i < content.length then do
        let b ← content[i]?
        if b == byte '\\' then literalAt content delim fuel (i + 2)
        else if b == delim then some (i + 1)
        else literalAt content delim fuel (i + 1)
      else some i

/-- The loop over a verbatim string: where it closes, if it does on this line. -/
def verbatimAt (content : Bytes) : Nat → Nat → Option (Option Nat)
  | 0, j => if j < content.length then none else some none
  | fuel + 1, j =>
      if j < content.length then do
        let b ← content[j]?
        if b == byte '"' then
          if j + 1 < content.length then do
            let c ← content[j + 1]?
            if c == byte '"' then verbatimAt content fuel (j + 2) else some (some (j + 1))
          else some (some (j + 1))
        else verbatimAt content fuel (j + 1)
      else some none

/-- The loop over a raw string that a run of `quotes` opened. -/
def rawAt (content : Bytes) (quotes : Nat) : Nat → Nat → Option (Option Nat)
  | 0, j => if j < content.length then none else some none
  | fuel + 1, j =>
      if j < content.length then do
        let b ← content[j]?
        if b == byte '"' then do
          let stop ← skipWhile (· == byte '"') content content.length j
          if quotes ≤ stop - j then some (some stop) else rawAt content quotes fuel stop
        else rawAt content quotes fuel (j + 1)
      else some none

/-- Whether the quote at `i` opens a verbatim string. -/
def verbatimBefore (content : Bytes) (i : Nat) : Option Bool := do
  let near ←
    if 1 ≤ i then do
      let b ← content[i - 1]?
      some (b == byte '@')
    else some false
  if near then some true
  else if 2 ≤ i then do
    let a ← content[i - 2]?
    let b ← content[i - 1]?
    some ((a == byte '$' && b == byte '@') || (a == byte '@' && b == byte '$'))
  else some false

/-- One turn of `scan_line` in code. -/
def scanCodeAt (content : Bytes) (i : Nat) : Option (LexState × Nat) := do
  let b ← content[i]?
  if b == byte '/' && content[i + 1]? == some (byte '/') then some (.code, content.length)
  else if b == byte '/' && content[i + 1]? == some (byte '*') then some (.blockComment, i + 2)
  else if b == byte '"' then do
    let isVerbatim ← verbatimBefore content i
    let stop ← skipWhile (· == byte '"') content content.length i
    if isVerbatim then some (.verbatimString, i + 1)
    else if 3 ≤ stop - i then some (.rawString (stop - i), stop)
    else do
      let stop ← literalAt content (byte '"') content.length (i + 1)
      some (.code, stop)
  else if b == byte '\'' then do
    let stop ← literalAt content (byte '\'') content.length (i + 1)
    some (.code, stop)
  else some (.code, i + 1)

/-- A closing delimiter that is not found takes everything up to `stop`. -/
def endedAt (state : LexState) (stop : Nat) : Option Nat → LexState × Nat
  | some j => (.code, j)
  | none => (state, stop)

/-- One turn of `scan_line`. -/
def scanTurnAt (state : LexState) (content : Bytes) (i : Nat) : Option (LexState × Nat) :=
  match state with
  | .code => scanCodeAt content i
  | .blockComment =>
      (slice content i content.length).map fun rest =>
        endedAt .blockComment content.length ((commentEnd rest).map (i + ·))
  | .verbatimString => (verbatimAt content content.length i).map (endedAt .verbatimString content.length)
  | .rawString quotes =>
      (rawAt content quotes content.length i).map (endedAt (.rawString quotes) content.length)

/-- The loop of `scan_line`. -/
def scanLineAt (content : Bytes) : Nat → LexState → Nat → Option LexState
  | 0, state, i => if i < content.length then none else some state
  | fuel + 1, state, i =>
      if i < content.length then do
        let turn ← scanTurnAt state content i
        scanLineAt content fuel turn.1 turn.2
      else some state

section Scan

variable {content : Bytes} {i : Nat}

/-- The offset `j` stands where `k` bytes past `i` do, or both are past the end. -/
def Reaches (content : Bytes) (i j k : Nat) : Prop :=
  j = i + k ∨ (content.length ≤ j ∧ content.length ≤ i + k)

theorem literalAt_end (content : Bytes) (delim : UInt8) (i fuel : Nat) (h : content.length ≤ i + fuel) :
    ∃ j, literalAt content delim fuel i = some j ∧
      Reaches content i j (literalEnd delim (content.drop i)) ∧ i ≤ j := by
  induction fuel using Nat.strong_induction_on generalizing i with
  | _ fuel ih =>
    by_cases hi : i < content.length
    · obtain ⟨fuel, rfl⟩ := Nat.exists_eq_add_one_of_ne_zero (n := fuel) (by omega)
      obtain ⟨b, hb, hdrop⟩ := drop_eq_cons_of_lt hi
      rw [literalAt, if_pos hi, hb, hdrop]
      dsimp only [bind, Option.bind]
      rw [literalEnd.eq_def]
      dsimp only
      by_cases hesc : (b == byte '\\') = true
      · rw [if_pos hesc, if_pos hesc]
        obtain ⟨j, hj, hreach, hle⟩ := ih fuel (by omega) (i + 2) (by omega)
        refine ⟨j, hj, ?_, by omega⟩
        by_cases hlast : i + 1 < content.length
        · obtain ⟨c, -, hdrop'⟩ := drop_eq_cons_of_lt hlast
          rw [hdrop', show i + 1 + 1 = i + 2 from rfl]
          dsimp only
          rcases hreach with rfl | ⟨hj', hk⟩
          · exact Or.inl (by omega)
          · exact Or.inr ⟨hj', by omega⟩
        · rw [List.drop_eq_nil_of_le (i := i + 1) (by omega)]
          dsimp only
          exact Or.inr ⟨by omega, by omega⟩
      · rw [if_neg hesc, if_neg hesc]
        by_cases hclose : (b == delim) = true
        · rw [if_pos hclose, if_pos hclose]
          exact ⟨i + 1, rfl, Or.inl rfl, by omega⟩
        · rw [if_neg hclose, if_neg hclose]
          obtain ⟨j, hj, hreach, hle⟩ := ih fuel (by omega) (i + 1) (by omega)
          refine ⟨j, hj, ?_, by omega⟩
          rcases hreach with rfl | ⟨hj', hk⟩
          · exact Or.inl (by omega)
          · exact Or.inr ⟨hj', by omega⟩
    · refine ⟨i, ?_, ?_, Nat.le_refl _⟩
      · cases fuel with
        | zero => rw [literalAt, if_neg hi]
        | succ fuel => rw [literalAt, if_neg hi]
      · rw [List.drop_eq_nil_of_le (by omega)]
        exact Or.inl rfl

theorem verbatimAt_eq {fuel : Nat} (h : content.length ≤ i + fuel) :
    verbatimAt content fuel i = some ((verbatimEnd (content.drop i)).map (i + ·)) := by
  induction fuel using Nat.strong_induction_on generalizing i with
  | _ fuel ih =>
    by_cases hi : i < content.length
    · obtain ⟨fuel, rfl⟩ := Nat.exists_eq_add_one_of_ne_zero (n := fuel) (by omega)
      obtain ⟨b, hb, hdrop⟩ := drop_eq_cons_of_lt hi
      rw [verbatimAt, if_pos hi, hb, hdrop]
      dsimp only [bind, Option.bind]
      rw [verbatimEnd.eq_def]
      dsimp only
      by_cases hquote : (b == byte '"') = true
      · rw [if_pos hquote, if_pos hquote]
        by_cases hlast : i + 1 < content.length
        · obtain ⟨c, hc, hdrop'⟩ := drop_eq_cons_of_lt hlast
          rw [if_pos hlast, hc, hdrop']
          dsimp only
          by_cases hdouble : (c == byte '"') = true
          · rw [if_pos hdouble, if_pos hdouble, ih fuel (by omega) (by omega), Option.map_map]
            congr 2
            funext n
            show i + 2 + n = i + (n + 2)
            omega
          · rw [if_neg hdouble, if_neg hdouble]
            rfl
        · rw [if_neg hlast, List.drop_eq_nil_of_le (i := i + 1) (by omega)]
          rfl
      · rw [if_neg hquote, if_neg hquote, ih fuel (by omega) (by omega), Option.map_map]
        congr 2
        funext n
        show i + 1 + n = i + (n + 1)
        omega
    · rw [List.drop_eq_nil_of_le (by omega)]
      cases fuel with
      | zero => rw [verbatimAt, if_neg hi]; rfl
      | succ fuel => rw [verbatimAt, if_neg hi]; rfl

/-- A run of quotes is read whole: what the loop over lists counts byte by byte. -/
theorem rawEnd_run (quotes run : Nat) (bytes : Bytes) :
    rawEnd quotes run bytes =
      (rawEnd quotes (run + (bytes.takeWhile (· == byte '"')).length)
        (bytes.dropWhile (· == byte '"'))).map (· + (bytes.takeWhile (· == byte '"')).length) := by
  induction bytes generalizing run with
  | nil => simp
  | cons b bytes ih =>
      by_cases hquote : (b == byte '"') = true
      · rw [List.takeWhile_cons, List.dropWhile_cons, if_pos hquote, if_pos hquote, rawEnd,
          if_pos hquote, ih, Option.map_map, List.length_cons, Nat.add_right_comm run 1, Nat.add_assoc run]
        rfl
      · rw [List.takeWhile_cons, List.dropWhile_cons, if_neg hquote, if_neg hquote]
        simp

/-- After a run that is long enough the string has closed. -/
theorem rawEnd_closed {quotes run : Nat} (h : run ≠ 0 ∧ quotes ≤ run) {bytes : Bytes}
    (hhead : ∀ b, bytes.head? = some b → (b == byte '"') = false) : rawEnd quotes run bytes = some 0 := by
  cases bytes with
  | nil => rw [rawEnd, if_pos h]
  | cons b bytes =>
      rw [rawEnd, hhead b rfl, if_neg (by decide), if_pos h]

/-- After a run that is too short the search goes on as from the start. -/
theorem rawEnd_open {quotes run : Nat} (h : ¬ (run ≠ 0 ∧ quotes ≤ run)) {bytes : Bytes}
    (hhead : ∀ b, bytes.head? = some b → (b == byte '"') = false) :
    rawEnd quotes run bytes = rawEnd quotes 0 bytes := by
  cases bytes with
  | nil => rw [rawEnd, rawEnd, if_neg h, if_neg (by omega)]
  | cons b bytes =>
      rw [rawEnd, rawEnd, hhead b rfl, if_neg (by decide), if_neg h, if_neg (by decide), if_neg (by omega)]

theorem head_dropWhile_quote (bytes : Bytes) :
    ∀ b, (bytes.dropWhile (· == byte '"')).head? = some b → (b == byte '"') = false := by
  intro b hb
  have hnot := List.head?_dropWhile_not (· == byte '"') bytes
  rw [hb] at hnot
  exact hnot

theorem rawAt_eq {quotes fuel : Nat} (h : content.length ≤ i + fuel) :
    rawAt content quotes fuel i = some ((rawEnd quotes 0 (content.drop i)).map (i + ·)) := by
  induction fuel using Nat.strong_induction_on generalizing i with
  | _ fuel ih =>
    by_cases hi : i < content.length
    · obtain ⟨fuel, rfl⟩ := Nat.exists_eq_add_one_of_ne_zero (n := fuel) (by omega)
      obtain ⟨b, hb, hdrop⟩ := drop_eq_cons_of_lt hi
      rw [rawAt, if_pos hi, hb]
      dsimp only [bind, Option.bind]
      by_cases hquote : (b == byte '"') = true
      · have hrun : 1 ≤ ((content.drop i).takeWhile (· == byte '"')).length := by
          rw [hdrop, List.takeWhile_cons, if_pos hquote, List.length_cons]
          omega
        have hhead := head_dropWhile_quote (content.drop i)
        rw [if_pos hquote, skipWhile_eq (by omega), rawEnd_run, Nat.zero_add, ← drop_skipped]
        rw [← drop_skipped] at hhead
        dsimp only
        rw [Nat.add_sub_cancel_left]
        generalize ((content.drop i).takeWhile (· == byte '"')).length = run at hrun hhead
        by_cases hclosed : quotes ≤ run
        · rw [if_pos hclosed, rawEnd_closed ⟨by omega, hclosed⟩ hhead]
          show some (some (i + run)) = some (some (i + (0 + run)))
          rw [Nat.zero_add]
        · rw [if_neg hclosed, rawEnd_open (by omega) hhead, ih fuel (by omega) (by omega),
            Option.map_map]
          congr 2
          funext n
          show i + run + n = i + (n + run)
          omega
      · rw [if_neg hquote, ih fuel (by omega) (by omega), hdrop, rawEnd, if_neg hquote,
          if_neg (by omega), Option.map_map]
        congr 2
        funext n
        show i + 1 + n = i + (n + 1)
        omega
    · rw [List.drop_eq_nil_of_le (by omega)]
      cases fuel with
      | zero => rw [rawAt, if_neg hi]; rfl
      | succ fuel => rw [rawAt, if_neg hi]; rfl

theorem verbatimBefore_eq (h : i ≤ content.length) :
    verbatimBefore content i = some (isVerbatimAt (content.take i).reverse) := by
  have hlast : ∀ k, k < content.length → ∃ b, content[k]? = some b ∧
      (content.take (k + 1)).reverse = b :: (content.take k).reverse := by
    intro k hk
    refine ⟨content[k], List.getElem?_eq_getElem hk, ?_⟩
    rw [List.take_add_one, List.getElem?_eq_getElem hk, List.reverse_append]
    rfl
  unfold verbatimBefore
  match i with
  | 0 => rfl
  | 1 =>
      obtain ⟨b, hb, hbefore⟩ := hlast 0 (by omega)
      rw [if_pos (by omega), hbefore]
      dsimp only [bind, Option.bind, isVerbatimAt]
      rw [hb]
      dsimp only
      cases hat : b == byte '@' with
      | true => rfl
      | false => rfl
  | i + 2 =>
      obtain ⟨b, hb, hbefore⟩ := hlast (i + 1) (by omega)
      obtain ⟨a, ha, hbefore'⟩ := hlast i (by omega)
      rw [if_pos (by omega), hbefore, hbefore', if_pos (by omega : 2 ≤ i + 2)]
      dsimp only [bind, Option.bind, isVerbatimAt]
      rw [show i + 2 - 1 = i + 1 from rfl, show i + 2 - 2 = i from rfl, hb, ha]
      dsimp only
      cases hat : b == byte '@' with
      | true => rfl
      | false =>
          simp

theorem commentEnd_pos {bytes : Bytes} {k : Nat} (h : commentEnd bytes = some k) : 0 < k := by
  cases bytes with
  | nil => cases h
  | cons b bytes =>
      rw [commentEnd] at h
      split at h
      · cases h; decide
      · obtain ⟨n, -, rfl⟩ := Option.map_eq_some_iff.mp h
        omega

theorem verbatimEnd_pos {bytes : Bytes} {k : Nat} (h : verbatimEnd bytes = some k) : 0 < k := by
  cases bytes with
  | nil => cases h
  | cons b bytes =>
      rw [verbatimEnd.eq_def] at h
      dsimp only at h
      split at h
      · split at h
        · split at h
          · obtain ⟨n, -, rfl⟩ := Option.map_eq_some_iff.mp h
            omega
          · cases h; decide
        · cases h; decide
      · obtain ⟨n, -, rfl⟩ := Option.map_eq_some_iff.mp h
        omega

theorem rawEnd_pos {quotes : Nat} {bytes : Bytes} {k : Nat} (h : rawEnd quotes 0 bytes = some k) :
    0 < k := by
  cases bytes with
  | nil => simp [rawEnd] at h
  | cons b bytes =>
      rw [rawEnd] at h
      split at h
      · obtain ⟨n, -, rfl⟩ := Option.map_eq_some_iff.mp h
        omega
      · rw [if_neg (by omega)] at h
        obtain ⟨n, -, rfl⟩ := Option.map_eq_some_iff.mp h
        omega

/-- A turn ends at `j` in a state; over lists it ends `k` bytes on in the same one. -/
def SameTurn (content : Bytes) (i : Nat) (here : Option (LexState × Nat)) (there : LexState × Nat) : Prop :=
  ∃ j, here = some (there.1, j) ∧ Reaches content i j there.2 ∧ i < j

theorem sameTurn_moved {state : LexState} {k : Nat} (h : 0 < k) :
    SameTurn content i (some (state, i + k)) (state, k) :=
  ⟨i + k, rfl, Or.inl rfl, by omega⟩

theorem scanCodeAt_eq (hi : i < content.length) :
    SameTurn content i (scanCodeAt content i) (scanCode (content.take i).reverse (content.drop i)) := by
  obtain ⟨b, hb, hdrop⟩ := drop_eq_cons_of_lt hi
  have hnext : content[i + 1]? = (content.drop (i + 1)).head? := by rw [List.head?_drop]
  have hliteral : ∀ delim, SameTurn content i
      ((literalAt content delim content.length (i + 1)).bind fun stop => some (.code, stop))
      (.code, 1 + literalEnd delim (content.drop (i + 1))) := by
    intro delim
    obtain ⟨j, hj, hreach, hle⟩ := literalAt_end content delim (i + 1) content.length (by omega)
    refine ⟨j, by rw [hj]; rfl, ?_, by omega⟩
    rcases hreach with rfl | ⟨hj', hk⟩
    · exact Or.inl (Nat.add_assoc i 1 _)
    · exact Or.inr ⟨hj', by omega⟩
  unfold scanCodeAt scanCode
  rw [hb, hnext, hdrop]
  dsimp only [bind, Option.bind]
  by_cases hlineComment : (b == byte '/' && (content.drop (i + 1)).head? == some (byte '/')) = true
  · rw [if_pos hlineComment, if_pos hlineComment]
    refine ⟨content.length, rfl, Or.inr ⟨Nat.le_refl _, ?_⟩, hi⟩
    rw [← hdrop, List.length_drop]
    omega
  · rw [if_neg hlineComment, if_neg hlineComment]
    by_cases hblock : (b == byte '/' && (content.drop (i + 1)).head? == some (byte '*')) = true
    · rw [if_pos hblock, if_pos hblock]
      exact sameTurn_moved (by decide)
    · rw [if_neg hblock, if_neg hblock]
      by_cases hquote : (b == byte '"') = true
      · have hrun : skipWhile (· == byte '"') content content.length i =
            some (i + ((content.drop i).takeWhile (· == byte '"')).length) := skipWhile_eq (by omega)
        rw [if_pos hquote, if_pos hquote, verbatimBefore_eq (Nat.le_of_lt hi), hrun, hdrop]
        dsimp only
        rw [Nat.add_sub_cancel_left]
        by_cases hverbatim : isVerbatimAt (content.take i).reverse = true
        · rw [if_pos hverbatim, if_pos hverbatim]
          exact sameTurn_moved (by decide)
        · rw [if_neg hverbatim, if_neg hverbatim]
          unfold quoteRun
          by_cases hraw : 3 ≤ ((b :: content.drop (i + 1)).takeWhile (· == byte '"')).length
          · rw [if_pos hraw, if_pos hraw]
            exact sameTurn_moved (by omega)
          · rw [if_neg hraw, if_neg hraw]
            exact hliteral (byte '"')
      · rw [if_neg hquote, if_neg hquote]
        by_cases hchar : (b == byte '\'') = true
        · rw [if_pos hchar, if_pos hchar]
          exact hliteral (byte '\'')
        · rw [if_neg hchar, if_neg hchar]
          exact sameTurn_moved (by decide)

/-- A search for a closing delimiter: where it is found, or the rest of the line. -/
theorem sameTurn_ended (state : LexState) {found : Option Nat} (hi : i < content.length)
    (hpos : ∀ k, found = some k → 0 < k) :
    SameTurn content i (some (endedAt state content.length (found.map (i + ·))))
      (endedAt state (content.drop i).length found) := by
  cases found with
  | some k => exact sameTurn_moved (hpos k rfl)
  | none =>
      refine ⟨content.length, rfl, Or.inr ⟨Nat.le_refl _, ?_⟩, hi⟩
      show content.length ≤ i + (content.drop i).length
      rw [List.length_drop]
      omega

/-- A turn by offset ends in the state the turn over lists ends in, and where it does. -/
theorem scanTurnAt_eq (state : LexState) (hi : i < content.length) :
    SameTurn content i (scanTurnAt state content i)
      (scanTurn state (content.take i).reverse (content.drop i)) := by
  cases state with
  | code => exact scanCodeAt_eq hi
  | blockComment =>
      have hslice : slice content i content.length = some (content.drop i) := by
        rw [slice_eq (by omega) (Nat.le_refl _), List.take_of_length_le (by rw [List.length_drop])]
      unfold scanTurnAt
      rw [hslice]
      exact sameTurn_ended .blockComment hi fun k => commentEnd_pos
  | verbatimString =>
      have hsearch : verbatimAt content content.length i = some ((verbatimEnd (content.drop i)).map (i + ·)) :=
        verbatimAt_eq (by omega)
      unfold scanTurnAt
      rw [hsearch]
      exact sameTurn_ended .verbatimString hi fun k => verbatimEnd_pos
  | rawString quotes =>
      have hsearch : rawAt content quotes content.length i =
          some ((rawEnd quotes 0 (content.drop i)).map (i + ·)) := rawAt_eq (by omega)
      unfold scanTurnAt
      dsimp only
      rw [hsearch]
      exact sameTurn_ended (.rawString quotes) hi fun k => rawEnd_pos

/-- The scan by offset is the scan over lists, and it ends. -/
theorem scanLineAt_eq {fuel : Nat} {state : LexState} (h : content.length ≤ i + fuel) :
    scanLineAt content fuel state i =
      some (scanTurns fuel state (content.take i).reverse (content.drop i)) := by
  induction fuel generalizing i state with
  | zero => rw [scanLineAt, if_neg (by omega), scanTurns]
  | succ fuel ih =>
      by_cases hi : i < content.length
      · obtain ⟨j, hturn, hreach, hlt⟩ := scanTurnAt_eq state hi
        have hne : (content.drop i).isEmpty = false := by
          obtain ⟨b, -, hdrop⟩ := drop_eq_cons_of_lt hi
          rw [hdrop]
          rfl
        rw [scanLineAt, if_pos hi, hturn, scanTurns, hne]
        dsimp only [bind, Option.bind]
        rw [if_neg (by decide), ih (by omega)]
        generalize scanTurn state (content.take i).reverse (content.drop i) = turn at hreach
        rcases hreach with rfl | ⟨hj, hk⟩
        · rw [List.drop_drop, List.take_add, List.reverse_append]
        · -- past the end nothing is read any more
          have hend : ∀ before : Bytes, scanTurns fuel turn.1 before [] = turn.1 := fun before => by
            cases fuel with
            | zero => rfl
            | succ fuel => rfl
          rw [List.drop_drop, List.drop_eq_nil_of_le hj, List.drop_eq_nil_of_le hk, hend, hend]
      · rw [scanLineAt, if_neg hi, scanTurns, List.drop_eq_nil_of_le (by omega)]
        rfl

end Scan

/-! ## Line spans -/

/-- `line_spans` from `start` on. -/
def lineSpansFrom (bytes : Bytes) : Nat → Nat → Option (List (Nat × Nat))
  | 0, _ => none
  | fuel + 1, start => do
      let rest ← slice bytes start bytes.length
      match rest.findIdx? isTerminatorByte with
      | none => some [(start, bytes.length)]
      | some rel => do
          let term := start + rel
          let b ← bytes[term]?
          let next := if b == 0x0D && bytes[term + 1]? == some 0x0A then term + 2 else term + 1
          if next = bytes.length then some [(start, term)]
          else do
            let spans ← lineSpansFrom bytes fuel next
            some ((start, term) :: spans)

/-- Where some lines stand in a text, from an offset on. -/
def spansOf : Nat → List SourceLine → List (Nat × Nat)
  | _, [] => []
  | off, l :: rest =>
      (off, off + l.bytes.length) :: spansOf (off + l.bytes.length + l.terminator.length) rest

/-- Content up to the first terminator, the terminator, and what follows it. -/
theorem firstTerminator {bytes : Bytes} {rel : Nat} (h : bytes.findIdx? isTerminatorByte = some rel) :
    ∃ terminator after, bytes = bytes.take rel ++ (terminator ++ after) ∧ Plain (bytes.take rel) ∧
      EndsLine terminator after ∧ rel < bytes.length ∧
      (if bytes[rel]? = some 0x0D ∧ bytes[rel + 1]? = some 0x0A then rel + 2 else rel + 1) =
        rel + terminator.length := by
  obtain ⟨hlt, hat, hbefore⟩ := List.findIdx?_eq_some_iff_getElem.mp h
  have hplain : Plain (bytes.take rel) := by
    intro b hb
    obtain ⟨k, hk, rfl⟩ := List.mem_take_iff_getElem.mp hb
    exact Bool.eq_false_iff.mpr (hbefore k (by omega))
  have hsplit : bytes = bytes.take rel ++ (bytes[rel] :: bytes.drop (rel + 1)) := by
    rw [← List.drop_eq_getElem_cons hlt, List.take_append_drop]
  have hget : bytes[rel]? = some bytes[rel] := List.getElem?_eq_getElem hlt
  have hnext : bytes[rel + 1]? = (bytes.drop (rel + 1)).head? := by rw [List.head?_drop]
  rw [hget, hnext]
  generalize bytes[rel] = b at hsplit hat
  generalize bytes.drop (rel + 1) = after at hsplit
  unfold isTerminatorByte at hat
  rw [Bool.or_eq_true, beq_iff_eq, beq_iff_eq] at hat
  rcases hat with rfl | rfl
  · refine ⟨[0x0A], after, hsplit, hplain, Or.inl rfl, hlt, ?_⟩
    rw [if_neg fun h => absurd (Option.some.inj h.1) (by decide)]
    rfl
  · by_cases hlf : after.head? = some 0x0A
    · obtain ⟨rest, rfl⟩ : ∃ rest, after = 0x0A :: rest := by
        cases after with
        | nil => cases hlf
        | cons c rest => exact ⟨rest, by rw [Option.some.inj hlf]⟩
      refine ⟨[0x0D, 0x0A], rest, hsplit, hplain, Or.inr (Or.inl rfl), hlt, ?_⟩
      rw [if_pos ⟨rfl, rfl⟩]
      rfl
    · refine ⟨[0x0D], after, hsplit, hplain, Or.inr (Or.inr ⟨rfl, hlf⟩), hlt, ?_⟩
      rw [if_neg fun h => hlf h.2]
      rfl

/-- The same in what is left from an offset on. -/
theorem firstTerminator_drop {bytes : Bytes} {start rel : Nat}
    (h : (bytes.drop start).findIdx? isTerminatorByte = some rel) :
    ∃ terminator after, bytes.drop start = (bytes.drop start).take rel ++ (terminator ++ after) ∧
      Plain ((bytes.drop start).take rel) ∧ EndsLine terminator after ∧
      ∃ hlt : start + rel < bytes.length,
        (if bytes[start + rel] == 0x0D && bytes[start + rel + 1]? == some 0x0A then start + rel + 2
          else start + rel + 1) = start + rel + terminator.length ∧
        bytes.drop (start + rel + terminator.length) = after := by
  obtain ⟨terminator, after, hsplit, hplain, hends, hlt, hnext⟩ := firstTerminator h
  rw [List.length_drop] at hlt
  have hlt' : start + rel < bytes.length := by omega
  refine ⟨terminator, after, hsplit, hplain, hends, hlt', ?_, ?_⟩
  · rw [List.getElem?_drop, List.getElem?_drop, List.getElem?_eq_getElem hlt', ← Nat.add_assoc] at hnext
    rw [Nat.add_assoc start rel terminator.length, ← hnext]
    by_cases hcrlf : bytes[start + rel] = 0x0D ∧ bytes[start + rel + 1]? = some 0x0A
    · rw [if_pos (by simpa using hcrlf), if_pos (by simpa using hcrlf)]
      rfl
    · rw [if_neg (by simpa using hcrlf), if_neg (by simpa using hcrlf)]
      rfl
  · have hlen : ((bytes.drop start).take rel).length = rel := by
      rw [List.length_take, List.length_drop]
      omega
    have hdrop := congrArg (List.drop (rel + terminator.length)) hsplit
    rw [← List.append_assoc, List.drop_left' (by rw [List.length_append, hlen]), List.drop_drop,
      ← Nat.add_assoc] at hdrop
    exact hdrop

/-- The spans of a text are where its lines stand, and no access is out of range. -/
theorem lineSpansFrom_eq {bytes : Bytes} {fuel : Nat} (start : Nat) (first : Bool)
    (h : start ≤ bytes.length) (hfuel : bytes.length < start + fuel) :
    lineSpansFrom bytes fuel start = some (spansOf start (linesFrom first [] (bytes.drop start))) := by
  induction fuel generalizing start first with
  | zero => omega
  | succ fuel ih =>
      have hslice : slice bytes start bytes.length = some (bytes.drop start) := by
        rw [slice_eq h (Nat.le_refl _), List.take_of_length_le (by rw [List.length_drop])]
      rw [lineSpansFrom, hslice]
      dsimp only [bind, Option.bind]
      cases hfind : (bytes.drop start).findIdx? isTerminatorByte with
      | none =>
          -- the last line, without a terminator
          have hplain : Plain (bytes.drop start) := List.findIdx?_eq_none_iff.mp hfind
          have hlines := linesFrom_plain hplain first [] []
          rw [List.append_nil, List.append_nil] at hlines
          rw [hlines, linesFrom, List.reverse_reverse, spansOf, spansOf]
          dsimp only
          rw [List.length_drop, Nat.add_sub_cancel' h]
      | some rel =>
          obtain ⟨terminator, after, hsplit, hplain, hends, hlt, hnext, hafter⟩ :=
            firstTerminator_drop hfind
          have hlen : ((bytes.drop start).take rel).length = rel := by
            rw [List.length_take, List.length_drop]
            omega
          have hlines : linesFrom first [] (bytes.drop start) =
              ⟨(bytes.drop start).take rel, terminator, first⟩ ::
                if after.isEmpty then [] else linesFrom false [] after := by
            conv => lhs; rw [hsplit]
            rw [linesFrom_plain hplain, linesFrom_ends hends, List.append_nil, List.reverse_reverse]
          have htotal : start + rel + terminator.length + after.length = bytes.length := by
            have hlength := congrArg List.length hsplit
            rw [List.length_append, List.length_append, hlen, List.length_drop] at hlength
            omega
          dsimp only
          rw [List.getElem?_eq_getElem hlt]
          dsimp only
          rw [hnext, hlines, spansOf]
          dsimp only
          rw [hlen]
          by_cases hempty : after = []
          · -- a terminator at the end of the file begins no further line
            rw [hempty] at htotal ⊢
            rw [if_pos (by simpa using htotal)]
            rfl
          · have hpos : 0 < after.length := List.length_pos_iff.mpr hempty
            have hterm : 0 < terminator.length := by
              rcases hends with rfl | rfl | ⟨rfl, -⟩ <;> decide
            have hrest := ih (start + rel + terminator.length) false (by omega) (by omega)
            rw [hafter] at hrest
            rw [if_neg (by omega), hrest, if_neg (by simpa using hempty)]

/-- `line_spans`. -/
def lineSpansAt (bytes : Bytes) : Option (List (Nat × Nat)) := lineSpansFrom bytes (bytes.length + 1) 0

theorem lineSpansAt_eq (bytes : Bytes) : lineSpansAt bytes = some (spansOf 0 (lineSpans bytes)) :=
  lineSpansFrom_eq 0 true (Nat.zero_le _) (by omega)

/-! ## The pass -/

/-- A range of a buffer overwritten with spaces. -/
def overwritten (buf : Bytes) (start stop : Nat) : Bytes :=
  buf.take start ++ (List.replicate (stop - start) (byte ' ') ++ buf.drop stop)

/-- `blank`: the copy is made when the first line is blanked. -/
def blankAt (out : Option Bytes) (original : Bytes) (start stop : Nat) : Option (Option Bytes) :=
  let buf := out.getD original
  if start ≤ stop ∧ stop ≤ buf.length then some (some (overwritten buf start stop)) else none

/-- The directive a line is taken for. -/
def takenAt (active : Bool) (state : LexState) (line : Bytes) (isFirstLine : Bool) :
    Option (Option DirectiveLine) :=
  if active && state != .code then some none else parseDirectiveAt line isFirstLine

/-- One line of the pass. -/
def stepAt (bytes : Bytes) (isFirstLine : Bool) (t : Tracker) (out : Option Bytes) (start stop : Nat) :
    Option (Tracker × Option Bytes) := do
  let line ← slice bytes start stop
  let active := currentActive t.stack
  let directive ← takenAt active t.state line isFirstLine
  match directive with
  | some d =>
      match keywordOf d.keyword with
      | .group k => do
          let out ← blankAt out bytes start stop
          some ({ t with stack := processGroup k d.rest t.symbols t.stack }, out)
      | .symbol k => do
          let out ← blankAt out bytes start stop
          some ({ t with symbols := processSymbol k d.rest t.symbols t.stack }, out)
      | .other =>
          if active then some (t, out)
          else do
            let out ← blankAt out bytes start stop
            some (t, out)
  | none =>
      if active then do
        let state ← scanLineAt line line.length t.state 0
        some ({ t with state := state }, out)
      else do
        let out ← blankAt out bytes start stop
        some (t, out)

/-- The loop over the lines. -/
def passAt (bytes : Bytes) : Bool → Tracker → Option Bytes → List (Nat × Nat) → Option (Option Bytes)
  | _, _, out, [] => some out
  | isFirstLine, t, out, (start, stop) :: spans => do
      let stepped ← stepAt bytes isFirstLine t out start stop
      passAt bytes false stepped.1 stepped.2 spans

/-- `source.as_bytes()`. -/
def asBytes (source : String) : Bytes := source.toList.flatMap String.utf8EncodeChar

/-- `strip_inactive_with`, `none` where the process would end: an access out of range, or an
output that is no text. -/
def stripInactiveAt (source : String) (predefined : List Bytes) : Option String := do
  let bytes := asBytes source
  let spans ← lineSpansAt bytes
  let out ← passAt bytes true ⟨predefined, [], .code⟩ none spans
  match out with
  | some buf => String.fromUTF8? buf.toByteArray
  | none => some source

theorem blankAt_eq {out : Option Bytes} {original : Bytes} {start stop : Nat} (h : start ≤ stop)
    (h' : stop ≤ (out.getD original).length) :
    blankAt out original start stop = some (some (overwritten (out.getD original) start stop)) := by
  unfold blankAt
  exact if_pos ⟨h, h'⟩

/-- The copy after a line: a line that is not kept is overwritten. -/
def copyAfter (bytes : Bytes) (out : Option Bytes) (start stop : Nat) (kept : Bool) : Option Bytes :=
  if kept then out else some (overwritten (out.getD bytes) start stop)

/-- A line by offset is the line over lists. -/
theorem stepAt_eq {bytes : Bytes} {t : Tracker} {out : Option Bytes} {start stop : Nat}
    (line : SourceLine) (hslice : slice bytes start stop = some line.bytes) (h : start ≤ stop)
    (h' : stop ≤ (out.getD bytes).length) :
    stepAt bytes line.first t out start stop =
      some ((step t line).1, copyAfter bytes out start stop (step t line).2) := by
  have hdirective : takenAt (currentActive t.stack) t.state line.bytes line.first =
      some (directiveAt (currentActive t.stack) t.state line) := by
    unfold takenAt directiveAt
    split
    · rfl
    · exact parseDirectiveAt_eq line.bytes line.first
  have hblank : blankAt out bytes start stop = some (copyAfter bytes out start stop false) :=
    blankAt_eq h h'
  unfold stepAt step
  rw [hslice]
  dsimp only [bind, Option.bind]
  rw [hdirective]
  dsimp only
  cases directiveAt (currentActive t.stack) t.state line with
  | some d =>
      dsimp only
      cases keywordOf d.keyword with
      | group k =>
          dsimp only
          rw [hblank]
      | symbol k =>
          dsimp only
          rw [hblank]
      | other =>
          cases currentActive t.stack with
          | true => rfl
          | false =>
              dsimp only
              rw [if_neg (by decide), hblank]
  | none =>
      cases currentActive t.stack with
      | true =>
          have hscan : scanLineAt line.bytes line.bytes.length t.state 0 =
              some (scanLine t.state line.bytes) := scanLineAt_eq (by omega)
          dsimp only
          rw [if_pos rfl, if_pos rfl, hscan]
          rfl
      | false =>
          dsimp only
          rw [if_neg (by decide), if_neg (by decide), hblank]

theorem slice_append (before middle after : Bytes) :
    slice (before ++ (middle ++ after)) before.length (before.length + middle.length) = some middle := by
  rw [slice_eq (by omega) (by simp), List.drop_left, Nat.add_sub_cancel_left, List.take_left]

/-- The loop writes what the pass over lists writes: `before` is what the lines so far have
become, and the rest of the copy is still as it was. -/
theorem passAt_eq {first : Bool} {lines : List SourceLine} (hlines : IsLines first lines)
    {bytes : Bytes} (before before' : Bytes) (t : Tracker) {out : Option Bytes}
    (hbytes : bytes = before ++ textOf lines) (hout : out.getD bytes = before' ++ textOf lines)
    (hlen : before'.length = before.length) :
    ∃ out', passAt bytes first t out (spansOf before.length lines) = some out' ∧
      out'.getD bytes = before' ++ textOf (written lines (keptLines t lines)) := by
  have hflag : ∀ {first : Bool} {line : SourceLine} {rest : List SourceLine},
      IsLines first (line :: rest) → line.first = first := by
    intro first line rest h
    cases h <;> rfl
  induction lines generalizing first before before' t out with
  | nil => exact ⟨out, rfl, hout⟩
  | cons line rest ih =>
      rw [textOf_cons] at hbytes hout
      have hslice : slice bytes before.length (before.length + line.bytes.length) = some line.bytes := by
        rw [hbytes]
        exact slice_append _ _ _
      have hend : before.length + line.bytes.length ≤ (out.getD bytes).length := by
        rw [hout, List.length_append, List.length_append]
        omega
      have hstep := stepAt_eq (t := t) line hslice (by omega) hend
      rw [hflag hlines] at hstep
      have hwritten : (copyAfter bytes out before.length (before.length + line.bytes.length)
            (step t line).2).getD bytes =
          before' ++ ((writtenLine line (step t line).2).bytes ++ (line.terminator ++ textOf rest)) := by
        cases (step t line).2 with
        | true => exact hout
        | false =>
            show overwritten (out.getD bytes) before.length (before.length + line.bytes.length) = _
            unfold overwritten
            rw [hout, ← hlen, List.take_left, Nat.add_sub_cancel_left, ← List.drop_drop, List.drop_left,
              List.drop_left, writtenLine_blanked]
      have hrest : passAt bytes first t out (spansOf before.length (line :: rest)) =
          passAt bytes false (step t line).1
            (copyAfter bytes out before.length (before.length + line.bytes.length) (step t line).2)
            (spansOf (before.length + line.bytes.length + line.terminator.length) rest) := by
        rw [spansOf, passAt, hstep]
        rfl
      rw [hrest, keptLines, written_cons, textOf_cons]
      by_cases hempty : rest = []
      · subst hempty
        exact ⟨_, rfl, hwritten⟩
      · have hlines' : IsLines false rest := by
          cases hlines with
          | last _ _ => exact absurd rfl hempty
          | ended _ _ _ => exact absurd rfl hempty
          | more _ _ _ _ h => exact h
        obtain ⟨out', hpass, hgot⟩ := ih hlines' (before ++ (line.bytes ++ line.terminator))
          (before' ++ ((writtenLine line (step t line).2).bytes ++ line.terminator)) (step t line).1
          (by rw [hbytes]; simp only [List.append_assoc])
          (by rw [hwritten]; simp only [List.append_assoc])
          (by simp only [List.length_append, length_writtenLine, hlen])
        rw [List.length_append, List.length_append, ← Nat.add_assoc] at hpass
        refine ⟨out', hpass, ?_⟩
        rw [hgot]
        simp only [List.append_assoc]
        rfl

/-! ## The output is text -/

/-- The bytes of some characters. -/
def IsText (bytes : Bytes) : Prop := ∃ text : List Char, bytes = text.flatMap String.utf8EncodeChar

theorem IsText.append {a b : Bytes} (ha : IsText a) (hb : IsText b) : IsText (a ++ b) := by
  obtain ⟨text, rfl⟩ := ha
  obtain ⟨text', rfl⟩ := hb
  exact ⟨text ++ text', List.flatMap_append.symm⟩

/-- What is no line end is written in bytes that end no line: one below `0x80`, which it is,
or only bytes from `0x80` on. -/
theorem plain_utf8EncodeChar {c : Char} (hlf : c ≠ '\n') (hcr : c ≠ '\r') :
    Plain (String.utf8EncodeChar c) := by
  have hlf' : c.val.toNat ≠ 10 := fun h => hlf (Char.ext (UInt32.toNat_inj.mp h))
  have hcr' : c.val.toNat ≠ 13 := fun h => hcr (Char.ext (UInt32.toNat_inj.mp h))
  have hbyte : ∀ n : Nat, n % 256 ≠ 10 → n % 256 ≠ 13 → isTerminatorByte (UInt8.ofNat n) = false := by
    intro n hn hn'
    unfold isTerminatorByte
    rw [Bool.or_eq_false_iff, beq_eq_false_iff_ne, beq_eq_false_iff_ne]
    constructor
    · intro h
      exact hn (by simpa using congrArg UInt8.toNat h)
    · intro h
      exact hn' (by simpa using congrArg UInt8.toNat h)
  intro b hb
  unfold String.utf8EncodeChar at hb
  dsimp only at hb
  split at hb
  · rw [List.mem_singleton] at hb
    subst hb
    exact hbyte _ (by omega) (by omega)
  · split at hb
    · simp only [List.mem_cons, List.not_mem_nil, or_false] at hb
      rcases hb with rfl | rfl
      · exact hbyte _ (by omega) (by omega)
      · exact hbyte _ (by omega) (by omega)
    · split at hb
      · simp only [List.mem_cons, List.not_mem_nil, or_false] at hb
        rcases hb with rfl | rfl | rfl
        · exact hbyte _ (by omega) (by omega)
        · exact hbyte _ (by omega) (by omega)
        · exact hbyte _ (by omega) (by omega)
      · simp only [List.mem_cons, List.not_mem_nil, or_false] at hb
        rcases hb with rfl | rfl | rfl | rfl
        · exact hbyte _ (by omega) (by omega)
        · exact hbyte _ (by omega) (by omega)
        · exact hbyte _ (by omega) (by omega)
        · exact hbyte _ (by omega) (by omega)

theorem head_utf8 {c : Char} {text : List Char} (h : c ≠ '\n') :
    ((c :: text).flatMap String.utf8EncodeChar).head? ≠ some 0x0A := by
  rw [List.flatMap_cons]
  by_cases hcr : c = '\r'
  · subst hcr
    intro hhead
    cases hhead
  · intro hhead
    obtain ⟨b, bs, hbytes⟩ := List.exists_cons_of_ne_nil (String.utf8EncodeChar_ne_nil (c := c))
    have hplain := plain_utf8EncodeChar h hcr b (by rw [hbytes]; exact List.mem_cons_self)
    rw [hbytes, List.cons_append, List.head?_cons, Option.some.injEq] at hhead
    rw [hhead] at hplain
    cases hplain

/-- The lines of a text are text: no character is cut by a line end. -/
theorem isText_linesFrom (text : List Char) (first : Bool) (read : Bytes) (hread : IsText read.reverse) :
    ∀ l ∈ linesFrom first read (text.flatMap String.utf8EncodeChar),
      IsText l.bytes ∧ IsText l.terminator := by
  have hends : ∀ {terminator : Bytes} (after : List Char) (first : Bool) {read : Bytes},
      IsText read.reverse → IsText terminator →
      EndsLine terminator (after.flatMap String.utf8EncodeChar) →
      (∀ l ∈ linesFrom false [] (after.flatMap String.utf8EncodeChar), IsText l.bytes ∧ IsText l.terminator) →
      ∀ l ∈ linesFrom first read (terminator ++ after.flatMap String.utf8EncodeChar),
        IsText l.bytes ∧ IsText l.terminator := by
    intro terminator after first read hread hterm hends hafter l hl
    rw [linesFrom_ends hends, List.mem_cons] at hl
    rcases hl with rfl | hl
    · exact ⟨hread, hterm⟩
    · split at hl
      · cases hl
      · exact hafter l hl
  induction hn : text.length using Nat.strong_induction_on generalizing text first read with
  | _ n ih =>
    subst hn
    match text with
    | [] =>
        intro l hl
        rw [List.flatMap_nil, linesFrom, List.mem_singleton] at hl
        subst hl
        exact ⟨hread, [], rfl⟩
    | c :: text =>
        have hrest := ih text.length (Nat.lt_succ_self _) text false [] ⟨[], rfl⟩ rfl
        by_cases hlf : c = '\n'
        · subst hlf
          exact hends text first hread ⟨['\n'], rfl⟩ (Or.inl rfl) hrest
        · by_cases hcr : c = '\r'
          · subst hcr
            by_cases hnext : text.head? = some '\n'
            · obtain ⟨text', rfl⟩ : ∃ text', text = '\n' :: text' := by
                cases text with
                | nil => cases hnext
                | cons d text' => exact ⟨text', by rw [Option.some.inj hnext]⟩
              have hrest' := ih text'.length (by simp only [List.length_cons]; omega) text' false
                [] ⟨[], rfl⟩ rfl
              exact hends text' first hread ⟨['\r', '\n'], rfl⟩ (Or.inr (Or.inl rfl)) hrest'
            · refine hends text first hread ⟨['\r'], rfl⟩ (Or.inr (Or.inr ⟨rfl, ?_⟩)) hrest
              cases text with
              | nil => decide
              | cons d text' => exact head_utf8 fun h => hnext (by rw [h]; rfl)
          · rw [List.flatMap_cons, linesFrom_plain (plain_utf8EncodeChar hlf hcr)]
            refine ih text.length (Nat.lt_succ_self _) text first _ ?_ rfl
            rw [List.reverse_append, List.reverse_reverse]
            exact hread.append ⟨[c], (List.flatMap_singleton ..).symm⟩

/-- Lines of text stay lines of text when some of them are blanked. -/
theorem isText_written {lines : List SourceLine} (h : ∀ l ∈ lines, IsText l.bytes ∧ IsText l.terminator)
    (kept : List Bool) : IsText (textOf (written lines kept)) := by
  have hspaces : ∀ n, IsText (List.replicate n (byte ' ')) := by
    intro n
    refine ⟨List.replicate n ' ', ?_⟩
    induction n with
    | zero => rfl
    | succ n ih =>
        rw [List.replicate_succ, List.replicate_succ, List.flatMap_cons, ← ih]
        rfl
  induction lines generalizing kept with
  | nil => exact ⟨[], rfl⟩
  | cons line rest ih =>
      cases kept with
      | nil => exact ⟨[], rfl⟩
      | cons k kept =>
          obtain ⟨hbytes, hterm⟩ := h line List.mem_cons_self
          have hcontent : IsText (writtenLine line k).bytes := by
            cases k with
            | true => exact hbytes
            | false =>
                rw [writtenLine_blanked]
                exact hspaces _
          rw [written_cons, textOf_cons]
          exact hcontent.append (hterm.append (ih (fun l hl => h l (List.mem_cons_of_mem _ hl)) kept))

theorem asBytes_ofList (text : List Char) :
    asBytes (String.ofList text) = text.flatMap String.utf8EncodeChar := by
  unfold asBytes
  rw [String.toList_ofList]

theorem fromUTF8?_asBytes (source : String) :
    String.fromUTF8? (asBytes source).toByteArray = some source := by
  have hbytes : (asBytes source).toByteArray = source.toByteArray := String.utf8Encode_toList
  rw [hbytes]
  unfold String.fromUTF8?
  rw [dif_pos source.isValidUTF8]
  rfl

/-- The pass by offset succeeds, with what the pass over lists writes. -/
theorem stripInactiveAt_eq (source : String) (predefined : List Bytes) :
    ∃ out, stripInactiveAt source predefined = some out ∧
      asBytes out = stripInactiveWith (asBytes source) predefined := by
  have htext : asBytes source = textOf (lineSpans (asBytes source)) := (textOf_lineSpans _).symm
  have hstart : (none : Option Bytes).getD (asBytes source) = [] ++ textOf (lineSpans (asBytes source)) :=
    htext
  obtain ⟨out, hpass, hout⟩ := passAt_eq (isLines_lineSpans (asBytes source)) [] []
    ⟨predefined, [], .code⟩ htext hstart rfl
  have hwritten : stripInactiveWith (asBytes source) predefined = textOf (written (lineSpans (asBytes source))
      (keptLines ⟨predefined, [], .code⟩ (lineSpans (asBytes source)))) := by
    rw [textOf_written]
    rfl
  rw [List.nil_append, ← hwritten] at hout
  unfold stripInactiveAt
  dsimp only [bind]
  rw [lineSpansAt_eq]
  dsimp only [Option.bind]
  rw [show passAt (asBytes source) true ⟨predefined, [], .code⟩ none
    (spansOf 0 (lineSpans (asBytes source))) = some out from hpass]
  cases out with
  | none => exact ⟨source, rfl, hout⟩
  | some buf =>
      have hbuf : buf = stripInactiveWith (asBytes source) predefined := hout
      have hlines := isText_linesFrom source.toList true [] ⟨[], rfl⟩
      obtain ⟨text, hchars⟩ := isText_written hlines
        (keptLines ⟨predefined, [], .code⟩ (lineSpans (asBytes source)))
      refine ⟨String.ofList text, ?_, ?_⟩
      · have hbytes : buf = asBytes (String.ofList text) := by
          rw [hbuf, hwritten, asBytes_ofList]
          exact hchars
        dsimp only
        rw [hbytes, fromUTF8?_asBytes]
      · rw [asBytes_ofList, hwritten]
        exact hchars.symm

/-! ## What the spans cover -/

theorem mem_spansOf {lines : List SourceLine} {off : Nat} {span : Nat × Nat}
    (h : span ∈ spansOf off lines) :
    off ≤ span.1 ∧ span.1 ≤ span.2 ∧ span.2 ≤ off + (textOf lines).length := by
  induction lines generalizing off with
  | nil => cases h
  | cons line rest ih =>
      have hlen : (textOf (line :: rest)).length =
          line.bytes.length + line.terminator.length + (textOf rest).length := by
        rw [textOf_cons, List.length_append, List.length_append, Nat.add_assoc]
      rw [spansOf, List.mem_cons] at h
      rcases h with rfl | h
      · dsimp only
        omega
      · have hrest := ih h
        omega

theorem spansOf_written {lines : List SourceLine} {kept : List Bool} (off : Nat)
    (hlen : kept.length = lines.length) : spansOf off (written lines kept) = spansOf off lines := by
  induction lines generalizing off kept with
  | nil =>
      rw [List.length_eq_zero_iff.mp hlen]
      rfl
  | cons line rest ih =>
      obtain ⟨k, kept, rfl⟩ := List.exists_cons_of_length_eq_add_one hlen
      rw [written_cons, spansOf, spansOf, length_writtenLine, ih _ (Nat.succ.inj hlen)]
      rfl

/-- What stands in a span: the line as it was, or spaces. -/
theorem slice_spansOf {lines : List SourceLine} {kept : List Bool} (hlen : kept.length = lines.length)
    (before before' : Bytes) (heq : before'.length = before.length) {span : Nat × Nat}
    (h : span ∈ spansOf before.length lines) :
    slice (before' ++ textOf (written lines kept)) span.1 span.2 =
        slice (before ++ textOf lines) span.1 span.2 ∨
      slice (before' ++ textOf (written lines kept)) span.1 span.2 =
        some (List.replicate (span.2 - span.1) (byte ' ')) := by
  induction lines generalizing before before' kept with
  | nil => cases h
  | cons line rest ih =>
      obtain ⟨k, kept, rfl⟩ := List.exists_cons_of_length_eq_add_one hlen
      rw [spansOf, List.mem_cons] at h
      rw [written_cons, textOf_cons, textOf_cons]
      rcases h with rfl | h
      · have hafter := slice_append before' (writtenLine line k).bytes
          (line.terminator ++ textOf (written rest kept))
        rw [length_writtenLine, heq] at hafter
        dsimp only
        cases k with
        | true =>
            left
            rw [slice_append]
            exact hafter
        | false =>
            right
            rw [Nat.add_sub_cancel_left, ← writtenLine_blanked]
            exact hafter
      · have hrest := ih (Nat.succ.inj hlen) (before ++ (line.bytes ++ line.terminator))
          (before' ++ ((writtenLine line k).bytes ++ line.terminator))
          (by simp only [List.length_append, length_writtenLine, heq])
          (by rwa [List.length_append, List.length_append, ← Nat.add_assoc])
        simp only [List.append_assoc] at hrest
        exact hrest

/-- The spans around a byte. -/
def covering (spans : List (Nat × Nat)) (i : Nat) : Nat :=
  spans.countP fun span => decide (span.1 ≤ i ∧ i < span.2)

theorem EndsLine.all_terminator {terminator after : Bytes} (h : EndsLine terminator after) :
    ∀ b ∈ terminator, isTerminatorByte b = true := by
  intro b hb
  rcases h with rfl | rfl | ⟨rfl, -⟩
  · rw [List.mem_singleton.mp hb]
    rfl
  · simp only [List.mem_cons, List.not_mem_nil, or_false] at hb
    rcases hb with rfl | rfl
    · rfl
    · rfl
  · rw [List.mem_singleton.mp hb]
    rfl

/-- Each byte of a line's content is in one span, and no byte of a terminator is in any. -/
theorem covering_spansOf {first : Bool} {lines : List SourceLine} (h : IsLines first lines)
    (off i : Nat) {b : UInt8} (hb : (textOf lines)[i]? = some b) :
    covering (spansOf off lines) (off + i) = if isTerminatorByte b then 0 else 1 := by
  have hsplit : ∀ {bytes terminator : Bytes} {first : Bool} (rest : List SourceLine) {off i : Nat}
      {b : UInt8}, Plain bytes → (∀ b ∈ terminator, isTerminatorByte b = true) →
      (∀ i b, (textOf rest)[i]? = some b →
        covering (spansOf (off + bytes.length + terminator.length) rest)
          (off + bytes.length + terminator.length + i) = if isTerminatorByte b then 0 else 1) →
      (textOf (⟨bytes, terminator, first⟩ :: rest))[i]? = some b →
      covering (spansOf off (⟨bytes, terminator, first⟩ :: rest)) (off + i) =
        if isTerminatorByte b then 0 else 1 := by
    intro bytes terminator first rest off i b hplain hends hrest hb
    rw [textOf_cons] at hb
    dsimp only at hb
    have hlater : i < bytes.length + terminator.length →
        covering (spansOf (off + bytes.length + terminator.length) rest) (off + i) = 0 := by
      intro hi
      unfold covering
      rw [List.countP_eq_zero]
      intro span hspan hcovers
      have hstart := (mem_spansOf hspan).1
      have hle := (of_decide_eq_true hcovers).1
      omega
    unfold covering at hrest hlater ⊢
    rw [spansOf, List.countP_cons]
    dsimp only
    by_cases hcontent : i < bytes.length
    · rw [List.getElem?_append_left hcontent] at hb
      have hbyte := hplain b (List.mem_of_getElem? hb)
      rw [hlater (by omega), if_pos (by simpa using hcontent), hbyte]
      rfl
    · rw [List.getElem?_append_right (by omega)] at hb
      rw [if_neg (by simp; omega)]
      by_cases hterm : i - bytes.length < terminator.length
      · rw [List.getElem?_append_left hterm] at hb
        have hbyte := hends b (List.mem_of_getElem? hb)
        rw [hlater (by omega), hbyte]
        rfl
      · rw [List.getElem?_append_right (by omega)] at hb
        have hgot := hrest _ b hb
        rw [show off + bytes.length + terminator.length + (i - bytes.length - terminator.length) =
          off + i by omega] at hgot
        rw [hgot, Nat.add_zero]
  induction h generalizing off i b with
  | last first hplain =>
      exact hsplit [] hplain (fun b hb => by cases hb) (fun i b hb => by cases hb) hb
  | ended first hplain hends =>
      exact hsplit [] hplain hends.all_terminator (fun i b hb => by cases hb) hb
  | more first hplain hends hne hrest ih =>
      exact hsplit _ hplain hends.all_terminator (fun i b hb => ih _ i hb) hb

/-- Blanking moves no terminator: the byte at an offset is one before if and only if it is one after. -/
theorem terminator_written {first : Bool} {lines : List SourceLine} (h : IsLines first lines)
    {kept : List Bool} (hlen : kept.length = lines.length) (i : Nat) {b : UInt8}
    (hb : isTerminatorByte b = true) :
    (textOf (written lines kept))[i]? = some b ↔ (textOf lines)[i]? = some b := by
  have hsplit : ∀ {line : SourceLine} {rest : List SourceLine} {k : Bool} {kept : List Bool} {i : Nat},
      Plain line.bytes →
      (∀ i : Nat, (textOf (written rest kept))[i]? = some b ↔ (textOf rest)[i]? = some b) →
      ((textOf (written (line :: rest) (k :: kept)))[i]? = some b ↔
        (textOf (line :: rest))[i]? = some b) := by
    intro line rest k kept i hplain hrest
    have hnone : ∀ {bytes : Bytes} {i : Nat}, Plain bytes → bytes[i]? ≠ some b := by
      intro bytes i hplain hget
      rw [hplain b (List.mem_of_getElem? hget)] at hb
      cases hb
    rw [written_cons, textOf_cons, textOf_cons]
    by_cases hcontent : i < line.bytes.length
    · rw [List.getElem?_append_left hcontent,
        List.getElem?_append_left (by rwa [length_writtenLine])]
      exact iff_of_false (hnone (plain_writtenLine hplain k)) (hnone hplain)
    · rw [List.getElem?_append_right (Nat.le_of_not_lt hcontent),
        List.getElem?_append_right (by rw [length_writtenLine]; omega), length_writtenLine]
      show ((line.terminator ++ _)[_]? = _ ↔ _)
      by_cases hterm : i - line.bytes.length < line.terminator.length
      · rw [List.getElem?_append_left hterm, List.getElem?_append_left hterm]
      · rw [List.getElem?_append_right (Nat.le_of_not_lt hterm),
          List.getElem?_append_right (Nat.le_of_not_lt hterm)]
        exact hrest _
  induction h generalizing kept i with
  | last first hplain =>
      obtain ⟨k, kept, rfl⟩ := List.exists_cons_of_length_eq_add_one hlen
      exact hsplit hplain fun i => Iff.rfl
  | ended first hplain hends =>
      obtain ⟨k, kept, rfl⟩ := List.exists_cons_of_length_eq_add_one hlen
      exact hsplit hplain fun i => Iff.rfl
  | more first hplain hends hne hrest ih =>
      obtain ⟨k, kept, rfl⟩ := List.exists_cons_of_length_eq_add_one hlen
      exact hsplit hplain fun i => ih (Nat.succ.inj hlen) i

/-- **Blanking keeps offsets.** On any text the pass comes to an end with a text of the same
length: no access is out of range and what is written is UTF-8. `\r` and `\n` stand exactly
where they stood, so the lines are where they were; each is as it was or all spaces. The
spans take in every byte that ends no line, once, and no other. -/
theorem stripInactiveAt_keeps_offsets (source : String) (predefined : List Bytes) :
    ∃ out spans, stripInactiveAt source predefined = some out ∧
      (asBytes out).length = (asBytes source).length ∧
      (∀ (i : Nat) (b : UInt8), isTerminatorByte b = true →
        ((asBytes out)[i]? = some b ↔ (asBytes source)[i]? = some b)) ∧
      lineSpansAt (asBytes source) = some spans ∧ lineSpansAt (asBytes out) = some spans ∧
      (∀ span ∈ spans, span.1 ≤ span.2 ∧ span.2 ≤ (asBytes source).length ∧
        (slice (asBytes out) span.1 span.2 = slice (asBytes source) span.1 span.2 ∨
          slice (asBytes out) span.1 span.2 = some (List.replicate (span.2 - span.1) (byte ' ')))) ∧
      ∀ (i : Nat) (b : UInt8), (asBytes source)[i]? = some b →
        covering spans i = if isTerminatorByte b then 0 else 1 := by
  obtain ⟨out, hrun, hout⟩ := stripInactiveAt_eq source predefined
  have hlines := isLines_lineSpans (asBytes source)
  have htext : textOf (lineSpans (asBytes source)) = asBytes source := textOf_lineSpans _
  have hspans := lineSpans_stripInactiveWith (asBytes source) predefined
  have hkept := length_keptLines ⟨predefined, [], .code⟩ (lineSpans (asBytes source))
  have hwritten : asBytes out = textOf (written (lineSpans (asBytes source))
      (keptLines ⟨predefined, [], .code⟩ (lineSpans (asBytes source)))) := by
    rw [hout, textOf_written]
    rfl
  rw [← hout] at hspans
  refine ⟨out, spansOf 0 (lineSpans (asBytes source)), hrun, ?_, ?_, lineSpansAt_eq _, ?_, ?_, ?_⟩
  · rw [hwritten, length_textOf_written hkept, htext]
  · intro i b hb
    rw [hwritten, terminator_written hlines hkept i hb, htext]
  · rw [lineSpansAt_eq, hspans, spansOf_written 0 hkept]
  · intro span hspan
    obtain ⟨-, hle, hle'⟩ := mem_spansOf hspan
    rw [htext, Nat.zero_add] at hle'
    have hslice := slice_spansOf hkept [] [] rfl hspan
    rw [List.nil_append, List.nil_append, ← hwritten, htext] at hslice
    exact ⟨hle, hle', hslice⟩
  · intro i b hb
    have hcover := covering_spansOf hlines 0 i (b := b) (by rw [htext]; exact hb)
    rwa [Nat.zero_add] at hcover

end Devscout.Preproc
