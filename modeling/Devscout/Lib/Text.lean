/-
# Devscout.Lib.Text -- separators, suffixes and bytes of text

Text is a list of characters. What a program does with `/`-joined paths and
dotted file names comes down to two operations, cutting at the last separator
and cutting at every separator, and to prefix tests against one segment. The
every-separator cut is the library's `List.splitOn`; this module adds the
last-separator cut, the prefix lemmas for joined segments, the lines of a text,
and the byte view of text that slicing by byte offsets needs.
-/

import Mathlib

namespace Devscout.Lib

/-- Text, as its characters. -/
abbrev Str := List Char

/-- What decides equality of texts, and of pairs of them, decides it. -/
instance : LawfulBEq Str := inferInstance

instance : LawfulBEq (Str × Str) := inferInstance

/-- The bytes of a file. -/
abbrev Bytes := List UInt8

/-- A property of every character of a text, tried on each of them. -/
theorem forall_chars {P : Char → Prop} [DecidablePred P] {text : Str}
    (h : text.all (fun c => decide (P c)) = true) : ∀ c ∈ text, P c :=
  fun c hc => of_decide_eq_true (List.all_eq_true.mp h c hc)

namespace Text

/-! ## The last separator -/

/-- Cut at the last `c`: what stands before it and what stands after it. -/
def rsplit (c : Char) : Str → Option (Str × Str)
  | [] => none
  | x :: xs =>
      match rsplit c xs with
      | some (a, b) => some (x :: a, b)
      | none => if x = c then some ([], xs) else none

theorem rsplit_eq_none_iff {c : Char} {s : Str} : rsplit c s = none ↔ c ∉ s := by
  induction s with
  | nil => simp [rsplit]
  | cons x xs ih =>
      cases h : rsplit c xs with
      | some ab =>
          have hmem : c ∈ xs := by
            by_contra hc
            rw [ih.mpr hc] at h
            cases h
          simp [rsplit, h, hmem]
      | none =>
          have hmem : c ∉ xs := ih.mp h
          by_cases hx : x = c
          · simp [rsplit, h, hx]
          · simp [rsplit, h, hx, hmem, Ne.symm hx]

theorem rsplit_append {c : Char} (a : Str) {b : Str} (hb : c ∉ b) :
    rsplit c (a ++ c :: b) = some (a, b) := by
  induction a with
  | nil => simp [rsplit, rsplit_eq_none_iff.mpr hb]
  | cons x a ih => simp [rsplit, ih]

theorem rsplit_eq_some {c : Char} {s a b : Str} (h : rsplit c s = some (a, b)) :
    s = a ++ c :: b ∧ c ∉ b := by
  induction s generalizing a with
  | nil => cases h
  | cons x xs ih =>
      rw [rsplit] at h
      cases hx : rsplit c xs with
      | some ab =>
          rw [hx] at h
          cases h
          obtain ⟨rfl, hb⟩ := ih hx
          exact ⟨rfl, hb⟩
      | none =>
          rw [hx] at h
          by_cases hc : x = c
          · rw [if_pos hc] at h
            cases h
            exact ⟨by rw [hc]; rfl, rsplit_eq_none_iff.mp hx⟩
          · rw [if_neg hc] at h
            cases h

/-! ## Joined segments -/

theorem intercalate_concat {c : Char} {segs : List Str} (h : segs ≠ []) (seg : Str) :
    [c].intercalate (segs ++ [seg]) = [c].intercalate segs ++ c :: seg := by
  induction segs with
  | nil => exact absurd rfl h
  | cons s segs ih =>
      by_cases hnil : segs = []
      · subst hnil
        simp
      · rw [List.cons_append, List.intercalate_cons_of_ne_nil (by simp),
          List.intercalate_cons_of_ne_nil hnil, ih hnil]
        simp

/-- Segments joined by `/`. -/
def joinSlash (segs : List Str) : Str := List.intercalate ['/'] segs

/-- The segments of a `/`-joined text. -/
def splitSlash (s : Str) : List Str := s.splitOn '/'

@[simp] theorem joinSlash_nil : joinSlash [] = [] := rfl
@[simp] theorem joinSlash_singleton (s : Str) : joinSlash [s] = s := by
  simp [joinSlash, List.intercalate]

theorem joinSlash_cons {s : Str} {segs : List Str} (h : segs ≠ []) :
    joinSlash (s :: segs) = s ++ '/' :: joinSlash segs := by
  cases segs with
  | nil => exact absurd rfl h
  | cons t ts => simp [joinSlash, List.intercalate, List.intersperse]

theorem joinSlash_append {a b : List Str} (ha : a ≠ []) (hb : b ≠ []) :
    joinSlash (a ++ b) = joinSlash a ++ '/' :: joinSlash b := by
  induction a with
  | nil => exact absurd rfl ha
  | cons s a ih =>
      by_cases h : a = []
      · subst h
        simpa using joinSlash_cons hb
      · rw [List.cons_append, joinSlash_cons (by simp [h]), joinSlash_cons h, ih h]
        simp

theorem joinSlash_splitSlash (s : Str) : joinSlash (splitSlash s) = s :=
  List.intercalate_splitOn '/'

theorem splitSlash_joinSlash {segs : List Str} (hslash : ∀ s ∈ segs, '/' ∉ s)
    (hne : segs ≠ []) : splitSlash (joinSlash segs) = segs :=
  List.splitOn_intercalate '/' hslash hne

theorem splitSlash_ne_nil (s : Str) : splitSlash s ≠ [] :=
  List.splitOn_ne_nil '/' s

theorem mem_splitSlash {s t : Str} (h : t ∈ splitSlash s) : '/' ∉ t ∧ t ⊆ s := by
  induction s generalizing t with
  | nil =>
      have ht : t = [] := by simpa [splitSlash] using h
      simp [ht]
  | cons c cs ih =>
      obtain ⟨hd, tl, hcs⟩ := List.exists_cons_of_ne_nil (splitSlash_ne_nil cs)
      have hstep : splitSlash (c :: cs) = if c = '/' then [] :: hd :: tl else (c :: hd) :: tl := by
        rw [← hcs]
        simp only [splitSlash, List.splitOn_cons_eq_if_modifyHead, beq_iff_eq]
        by_cases hc : c = '/'
        · simp [hc]
        · have hcs' : List.splitOn '/' cs = hd :: tl := hcs
          simp [hc, hcs']
      have hrest : ∀ u ∈ hd :: tl, '/' ∉ u ∧ u ⊆ cs := fun u hu => ih (hcs ▸ hu)
      rw [hstep] at h
      by_cases hc : c = '/'
      · rw [if_pos hc] at h
        rcases List.mem_cons.mp h with rfl | ht
        · simp
        · exact ⟨(hrest t ht).1, List.subset_cons_of_subset c (hrest t ht).2⟩
      · rw [if_neg hc] at h
        rcases List.mem_cons.mp h with rfl | ht
        · obtain ⟨hno, hsub⟩ := hrest hd List.mem_cons_self
          exact ⟨by simp [hno, Ne.symm hc], List.cons_subset_cons c hsub⟩
        · have := hrest t (List.mem_cons_of_mem hd ht)
          exact ⟨this.1, List.subset_cons_of_subset c this.2⟩

/-- A text prefix that ends at a separator is a prefix of segments. -/
theorem dirPrefix_iff {d : Str} {segs : List Str} (hslash : ∀ s ∈ segs, '/' ∉ s)
    (hne : segs ≠ []) :
    d ++ ['/'] <+: joinSlash segs ↔ ∃ t, t ≠ [] ∧ segs = splitSlash d ++ t := by
  constructor
  · rintro ⟨r, hr⟩
    refine ⟨splitSlash r, splitSlash_ne_nil r, ?_⟩
    calc
      segs = splitSlash (joinSlash segs) := (splitSlash_joinSlash hslash hne).symm
      _ = splitSlash (d ++ '/' :: r) := by rw [← hr]; simp
      _ = splitSlash d ++ splitSlash r := List.splitOn_append_cons_self d r
  · rintro ⟨t, ht, rfl⟩
    refine ⟨joinSlash t, ?_⟩
    rw [joinSlash_append (splitSlash_ne_nil d) ht, joinSlash_splitSlash]
    simp

/-- The texts before each `/`, the longest first: what cutting at the last
separator visits when it is repeated until none is left. -/
def parents : Str → List Str
  | [] => []
  | c :: cs => (parents cs).map (c :: ·) ++ if c = '/' then [[]] else []

theorem mem_parents_iff {s d : Str} : d ∈ parents s ↔ d ++ ['/'] <+: s := by
  induction s generalizing d with
  | nil =>
      constructor
      · exact fun h => nomatch h
      · exact fun h => absurd (List.prefix_nil.mp h) (by simp)
  | cons c cs ih =>
      rw [parents, List.mem_append, List.mem_map]
      rcases d with _ | ⟨x, d⟩
      · rw [List.nil_append, List.cons_prefix_cons]
        constructor
        · rintro (⟨e, -, he⟩ | h)
          · cases he
          · split at h
            · rename_i hc
              exact ⟨hc.symm, List.nil_prefix⟩
            · cases h
        · rintro ⟨hc, -⟩
          rw [if_pos hc.symm]
          exact .inr List.mem_cons_self
      · rw [List.cons_append, List.cons_prefix_cons, ← ih]
        constructor
        · rintro (⟨e, he, heq⟩ | h)
          · cases heq
            exact ⟨rfl, he⟩
          · split at h
            · exact absurd (List.mem_singleton.mp h) (List.cons_ne_nil x d)
            · cases h
        · rintro ⟨rfl, hd⟩
          exact .inl ⟨d, hd, rfl⟩

/-- The texts before each `/` come from the longest to the shortest. -/
theorem parents_sorted (s : Str) : (parents s).Pairwise fun d e => e.length < d.length := by
  induction s with
  | nil => exact List.Pairwise.nil
  | cons c cs ih =>
      have hmap : ((parents cs).map (c :: ·)).Pairwise fun d e => e.length < d.length :=
        List.pairwise_map.mpr (ih.imp fun h => by simpa using h)
      rw [parents]
      split
      · refine List.pairwise_append.mpr ⟨hmap, List.pairwise_singleton _ _, ?_⟩
        intro d hd e he
        obtain ⟨d, -, rfl⟩ := List.mem_map.mp hd
        rw [List.mem_singleton.mp he]
        exact Nat.succ_pos _
      · rwa [List.append_nil]

/-- Up to the last `/` first, and then on from there. -/
theorem parents_append (a : Str) {b : Str} (hb : '/' ∉ b) : parents (a ++ '/' :: b) = a :: parents a := by
  induction a with
  | nil =>
      have hnone : parents b = [] := by
        refine List.eq_nil_iff_forall_not_mem.mpr fun d hd => hb ?_
        exact (mem_parents_iff.mp hd).subset (List.mem_append_right d List.mem_cons_self)
      show (parents b).map ('/' :: ·) ++ [[]] = [[]]
      rw [hnone, List.map_nil, List.nil_append]
  | cons c a ih =>
      rw [List.cons_append, parents, ih]
      rfl

/-! ## Lines -/

/-- Whether a character is white space. -/
def isWhitespace (c : Char) : Bool :=
  let n := c.toNat
  (9 ≤ n && n ≤ 13) || (0x2000 ≤ n && n ≤ 0x200A) ||
    n ∈ [0x20, 0x85, 0xA0, 0x1680, 0x2028, 0x2029, 0x202F, 0x205F, 0x3000]

/-- A text without the white space around it. -/
def trim (s : Str) : Str := (s.dropWhile isWhitespace).rdropWhile isWhitespace

/-- A line without the carriage return at its end. -/
def stripReturn (line : Str) : Str := if line.getLast? = some '\r' then line.dropLast else line

/-- The lines of a text: a last one that no line feed ends counts unless it is empty, and keeps
its carriage return. -/
def lines (s : Str) : List Str :=
  let parts := s.splitOn '\n'
  let last := parts.getLastD []
  parts.dropLast.map stripReturn ++ if last = [] then [] else [last]

example : lines ['a', '\r', '\n', '\n', 'b', '\r'] = [['a'], [], ['b', '\r']] := by decide +kernel

/-! ## Bytes -/

/-- How many bytes the UTF-8 form of a text takes. -/
def utf8Len (s : Str) : Nat := (s.map Char.utf8Size).sum

theorem utf8Len_cons (c : Char) (s : Str) : utf8Len (c :: s) = c.utf8Size + utf8Len s := by
  simp [utf8Len]

/-- The text from byte offset `n` on; `none` past the end or inside a character. -/
def sliceFrom : Nat → Str → Option Str
  | n, [] => if n = 0 then some [] else none
  | n, c :: cs =>
      if n = 0 then some (c :: cs)
      else if c.utf8Size ≤ n then sliceFrom (n - c.utf8Size) cs
      else none

theorem sliceFrom_append (a b : Str) : sliceFrom (utf8Len a) (a ++ b) = some b := by
  induction a with
  | nil => cases b <;> simp [utf8Len, sliceFrom]
  | cons c a ih =>
      have hpos : 0 < c.utf8Size := Char.utf8Size_pos c
      have hne : ¬c.utf8Size + utf8Len a = 0 := by omega
      rw [utf8Len_cons, List.cons_append, sliceFrom, if_neg hne, if_pos (Nat.le_add_right ..),
        Nat.add_sub_cancel_left, ih]

/-- A slice of two texts joined starts in the first one or lies in the second. -/
theorem sliceFrom_append_of (k : Nat) (a b : Str) :
    sliceFrom k (a ++ b) = match sliceFrom k a with
      | some r => some (r ++ b)
      | none => if utf8Len a < k then sliceFrom (k - utf8Len a) b else none := by
  induction a generalizing k with
  | nil =>
      by_cases hk : k = 0
      · subst hk
        cases b <;> simp [sliceFrom]
      · simp [sliceFrom, hk, utf8Len, Nat.pos_of_ne_zero hk]
  | cons c a ih =>
      by_cases hk : k = 0
      · simp [sliceFrom, hk]
      · by_cases hc : c.utf8Size ≤ k
        · rw [List.cons_append, sliceFrom, if_neg hk, if_pos hc, ih, sliceFrom, if_neg hk, if_pos hc,
            utf8Len_cons]
          have hiff : utf8Len a < k - c.utf8Size ↔ c.utf8Size + utf8Len a < k := by omega
          simp only [hiff, Nat.sub_sub]
        · have hnot : ¬c.utf8Size + utf8Len a < k := by omega
          rw [List.cons_append, sliceFrom, if_neg hk, if_neg hc, sliceFrom, if_neg hk, if_neg hc,
            utf8Len_cons]
          simp [hnot]

theorem subset_of_sliceFrom {k : Nat} {s r : Str} (h : sliceFrom k s = some r) : r ⊆ s := by
  induction s generalizing k with
  | nil =>
      simp only [sliceFrom] at h
      split at h <;> simp_all
  | cons c s ih =>
      simp only [sliceFrom] at h
      split at h
      · cases h; exact List.Subset.refl _
      · split at h
        · exact List.subset_cons_of_subset _ (ih h)
        · cases h

/-- The text up to byte offset `n`; `none` past the end or inside a character. -/
def sliceTo : Nat → Str → Option Str
  | n, [] => if n = 0 then some [] else none
  | n, c :: cs =>
      if n = 0 then some []
      else if c.utf8Size ≤ n then (sliceTo (n - c.utf8Size) cs).map (c :: ·)
      else none

theorem sliceTo_append (a b : Str) : sliceTo (utf8Len a) (a ++ b) = some a := by
  induction a with
  | nil => cases b <;> simp [utf8Len, sliceTo]
  | cons c a ih =>
      have hpos : 0 < c.utf8Size := Char.utf8Size_pos c
      have hne : ¬c.utf8Size + utf8Len a = 0 := by omega
      rw [utf8Len_cons, List.cons_append, sliceTo, if_neg hne, if_pos (Nat.le_add_right ..),
        Nat.add_sub_cancel_left, ih]
      rfl

/-- The text between two byte offsets. -/
def slice (from_ to_ : Nat) (s : Str) : Option Str := (sliceTo to_ s).bind (sliceFrom from_)

/-- What stands between a first and a last character of one byte each. -/
theorem slice_inner {a b : Char} (ha : a.utf8Size = 1) (hb : b.utf8Size = 1) (mid : Str) :
    slice 1 (utf8Len (a :: (mid ++ [b])) - 1) (a :: (mid ++ [b])) = some mid := by
  have hlen : utf8Len (a :: (mid ++ [b])) - 1 = utf8Len (a :: mid) := by
    simp [utf8Len, ha, hb]
    omega
  have hto : sliceTo (utf8Len (a :: mid)) (a :: mid ++ [b]) = some (a :: mid) := sliceTo_append _ _
  have hfrom : sliceFrom (utf8Len [a]) ([a] ++ mid) = some mid := sliceFrom_append _ _
  have hone : utf8Len [a] = 1 := by simp [utf8Len, ha]
  rw [slice, hlen, ← List.cons_append, hto, Option.bind_some, ← hone]
  exact hfrom

/-- A multi-byte character under way: how many bytes are still due, the range the
next one must lie in, and the bits read so far. -/
structure Partial where
  due : Nat
  low : UInt8
  high : UInt8
  bits : Nat

/-- What one byte starts: a whole character, or the first byte of a longer one. -/
def lossyStart (b : UInt8) : Char ⊕ Partial :=
  if b < 0x80 then .inl (Char.ofNat b.toNat)
  else if b < 0xC2 then .inl (Char.ofNat 0xFFFD)
  else if b < 0xE0 then .inr ⟨1, 0x80, 0xBF, b.toNat % 32⟩
  else if b = 0xE0 then .inr ⟨2, 0xA0, 0xBF, 0⟩
  else if b = 0xED then .inr ⟨2, 0x80, 0x9F, b.toNat % 16⟩
  else if b < 0xF0 then .inr ⟨2, 0x80, 0xBF, b.toNat % 16⟩
  else if b = 0xF0 then .inr ⟨3, 0x90, 0xBF, 0⟩
  else if b < 0xF4 then .inr ⟨3, 0x80, 0xBF, b.toNat % 8⟩
  else if b = 0xF4 then .inr ⟨3, 0x80, 0x8F, b.toNat % 8⟩
  else .inl (Char.ofNat 0xFFFD)

def lossyGo : Option Partial → Bytes → Str
  | none, [] => []
  | some _, [] => [Char.ofNat 0xFFFD]
  | none, b :: bs =>
      match lossyStart b with
      | .inl c => c :: lossyGo none bs
      | .inr p => lossyGo (some p) bs
  | some p, b :: bs =>
      if p.low ≤ b ∧ b ≤ p.high then
        let bits := p.bits * 64 + b.toNat % 64
        if p.due = 1 then Char.ofNat bits :: lossyGo none bs
        else lossyGo (some ⟨p.due - 1, 0x80, 0xBF, bits⟩) bs
      else
        -- the maximal valid part is replaced by one mark and `b` starts afresh
        Char.ofNat 0xFFFD ::
          match lossyStart b with
          | .inl c => c :: lossyGo none bs
          | .inr p => lossyGo (some p) bs

/-- Whether bytes that follow a character under way, if any, complete it and whole
characters after it. -/
def isUtf8From : Option Partial → Bytes → Bool
  | none, [] => true
  | some _, [] => false
  | none, b :: bs =>
      match lossyStart b with
      | .inl _ => b < 0x80 && isUtf8From none bs
      | .inr p => isUtf8From (some p) bs
  | some p, b :: bs =>
      p.low ≤ b && b ≤ p.high &&
        isUtf8From (if p.due = 1 then none else some ⟨p.due - 1, 0x80, 0xBF, p.bits⟩) bs

/-- Whether bytes are the UTF-8 form of a text. -/
def isUtf8 (bytes : Bytes) : Bool := isUtf8From none bytes

/-- UTF-8 decoding that never fails: each maximal invalid part becomes U+FFFD. -/
def fromUtf8Lossy (bytes : Bytes) : Str := lossyGo none bytes

example : isUtf8 [0x61, 0xC3, 0xA9] = true ∧ isUtf8 [0x61, 0xC3] = false ∧
    isUtf8 [0xED, 0xA0, 0x80] = false := by decide

example : fromUtf8Lossy [0x61, 0xE2, 0x82, 0x62, 0xC3, 0xA9] = ['a', Char.ofNat 0xFFFD, 'b', 'é'] := by
  decide

end Text

end Devscout.Lib
