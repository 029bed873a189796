/-
# Devscout.Resolve.GuessKey -- the key that drops repeated guesses

A guess that repeats an earlier one is dropped with its count, and what repeats is told
by a key: the fields of the edge, joined by spaces. The key is meant to be equal exactly
when the two edges serialize to the same bytes.

A path may hold spaces, though, and an absent member is written like a member of one
dash. So the words of a key can be read in several ways; which keys can be read in one
way only is what this module says.
-/

import Devscout.Lib.JsonText
import Devscout.Resolve.Assembly

namespace Devscout.Resolve

open Lib JsonText

/-! ## The bytes of an edge -/

/-- The values an edge's fields are written with. -/
inductive FieldValue where
  | text (s : Str)
  | number (n : Nat)
  | flag
  | texts (ss : List Str)
  | candidates (cs : List Candidate)

def writeList (items : List Str) : Str := '[' :: (List.intercalate [','] items ++ [']'])

example : writeList [['1'], ['2']] = ['[', '1', ',', '2', ']'] := by decide +kernel

def writeField (key : String) (value : Str) : Str := quote key.toList ++ ':' :: value

/-- The fields of an object, the first brace already written. -/
def writeFields : List Str → Str
  | [] => ['}']
  | [f] => f ++ ['}']
  | f :: fs => f ++ ',' :: writeFields fs

def FieldValue.write : FieldValue → Str
  | text s => quote s
  | number n => decimal n
  | flag => "true".toList
  | texts ss => writeList (ss.map quote)
  | candidates cs => writeList (cs.map fun c =>
      '{' :: writeFields [writeField "id" (quote c.id), writeField "file" (quote c.file)])

def writeNamed (f : String × FieldValue) : Str := writeField f.1 f.2.write

/-- A field left out when there is nothing to say. -/
def optionalText (key : String) (s : Option Str) : List (String × FieldValue) :=
  (s.map fun s => (key, FieldValue.text s)).toList

def flagged (heuristic : Bool) : List (String × FieldValue) :=
  if heuristic then [("heuristic", .flag)] else []

def RefKind.text : RefKind → Str
  | imports => "imports".toList
  | usesMember => "uses-member".toList
  | ctorParam => "ctor-param".toList
  | inherits => "inherits".toList
  | usesType => "uses-type".toList

def HeuristicTier.text : HeuristicTier → Str
  | ext => "ext".toList
  | guess => "guess".toList

theorem HeuristicTier.text_injective : Function.Injective HeuristicTier.text := by
  intro t t' h
  cases t <;> cases t' <;> first | rfl | exact absurd h (by decide)

def SemanticProvenance.text : SemanticProvenance → Str
  | semantic => "semantic".toList
  | semanticDiscovered => "semantic-discovered".toList

namespace Edge

/-- The kind, and where the edge starts. -/
def opening (kind : String) (fromFile : Str) (fromLine : Nat) : List (String × FieldValue) :=
  [("kind", .text kind.toList), ("from_file", .text fromFile), ("from_line", .number fromLine)]

def target (toDef toFile : Str) : List (String × FieldValue) :=
  [("to", .text toDef), ("to_file", .text toFile)]

/-- The fields of an edge in the order they are written. -/
def fields : Edge → List (String × FieldValue)
  | inherits fromFile fromLine toDef toFile heuristic =>
      opening "inherits" fromFile fromLine ++ target toDef toFile ++ flagged heuristic
  | usesType fromFile fromLine toDef toFile heuristic =>
      opening "uses-type" fromFile fromLine ++ target toDef toFile ++ flagged heuristic
  | usesMember fromFile fromLine toDef toFile heuristic tier member source overloadSignature =>
      opening "uses-member" fromFile fromLine ++ target toDef toFile ++ flagged heuristic ++
        optionalText "tier" (tier.map HeuristicTier.text) ++ optionalText "member" member ++
        optionalText "source" (source.map SemanticProvenance.text) ++
        optionalText "overload_signature" overloadSignature
  | imports fromFile fromLine target =>
      opening "imports" fromFile fromLine ++ [("target", .text target)]
  | ambiguous origin fromFile fromLine raw candidates candidateCount =>
      [("kind", .text "ambiguous".toList), ("origin", .text origin.text),
        ("from_file", .text fromFile), ("from_line", .number fromLine), ("raw", .text raw),
        ("candidates", .candidates candidates), ("candidate_count", .number candidateCount)]
  | ctorDi fromFile fromLine iface resolution args toDef candidates =>
      opening "ctor-di" fromFile fromLine ++
        [("iface", .text iface), ("resolution", .text resolution)] ++
        (args.map fun ss => ("args", FieldValue.texts ss)).toList ++ optionalText "to" toDef ++
        if candidates.isEmpty then [] else [("candidates", .candidates candidates)]
  | implements fromFile fromLine toDef toFile member =>
      opening "implements" fromFile fromLine ++ target toDef toFile ++ optionalText "member" member
  | overrides fromFile fromLine toDef toFile member =>
      opening "overrides" fromFile fromLine ++ target toDef toFile ++ optionalText "member" member
  | busHop fromFile fromLine message toDef toFile evidence =>
      opening "bus-hop" fromFile fromLine ++ [("message", .text message)] ++ target toDef toFile ++
        [("evidence", .text evidence)]

/-- The bytes of an edge in a graph. -/
def serialize (e : Edge) : Str :=
  '{' :: writeFields (e.fields.map writeNamed)

end Edge

/-! ### Reading the fields back -/

/-- A value that neither a list nor an object holds. -/
def FieldValue.isPlain : FieldValue → Bool
  | text _ | number _ | flag => true
  | texts _ | candidates _ => false

/-- What stands behind a field. -/
def afterField : List Str → Str
  | [] => ['}']
  | f :: fs => ',' :: writeFields (f :: fs)

theorem writeFields_cons (f : Str) (fs : List Str) : writeFields (f :: fs) = f ++ afterField fs := by
  cases fs <;> rfl

theorem exists_afterField (fs : List Str) : ∃ c x, afterField fs = c :: x ∧ c.isDigit = false := by
  cases fs with
  | nil => exact ⟨'}', [], rfl, by decide⟩
  | cons f fs => exact ⟨',', writeFields (f :: fs), rfl, by decide⟩

/-- The head of a number is none of the characters the other values begin with. -/
theorem decimal_append_ne {n : Nat} {c : Char} (hc : c.isDigit = false) (x y : Str) :
    decimal n ++ x ≠ c :: y := by
  intro h
  obtain ⟨d, ds, hdigits⟩ := List.exists_cons_of_ne_nil (decimal_ne_nil n)
  rw [hdigits] at h
  have hdigit : d.isDigit := isDigit_of_mem_decimal (hdigits ▸ List.mem_cons_self)
  rw [(List.cons.inj h).1, hc] at hdigit
  cases hdigit

/-- A plain value is read off the front of any text that goes on with no digit. -/
theorem FieldValue.write_append_inj {v w : FieldValue} (hv : v.isPlain) (hw : w.isPlain)
    {c d : Char} (hc : c.isDigit = false) (hd : d.isDigit = false) {x y : Str}
    (h : v.write ++ c :: x = w.write ++ d :: y) : v = w ∧ c :: x = d :: y := by
  match v, w with
  | text s, text t =>
      obtain ⟨rfl, hrest⟩ := quote_append_inj (s := s) (t := t) h
      exact ⟨rfl, hrest⟩
  | number m, number n =>
      obtain ⟨rfl, hrest⟩ := decimal_append_inj (m := m) (n := n) hc hd h
      exact ⟨rfl, hrest⟩
  | flag, flag => exact ⟨rfl, @List.append_cancel_left _ "true".toList _ _ h⟩
  | text s, number n => exact absurd h.symm (decimal_append_ne (by decide) _ _)
  | flag, number n => exact absurd h.symm (decimal_append_ne (by decide) _ _)
  | number m, text t => exact absurd h (decimal_append_ne (by decide) _ _)
  | number m, flag => exact absurd h (decimal_append_ne (by decide) _ _)
  | text s, flag => exact absurd (List.cons.inj h).1 (by decide)
  | flag, text t => exact absurd (List.cons.inj h).1 (by decide)

/-- **Plain fields are read back from the bytes of their object.** -/
theorem writeFields_inj {fs gs : List (String × FieldValue)} (hfs : ∀ f ∈ fs, f.2.isPlain)
    (hgs : ∀ g ∈ gs, g.2.isPlain)
    (h : writeFields (fs.map writeNamed) = writeFields (gs.map writeNamed)) : fs = gs := by
  induction fs generalizing gs with
  | nil =>
      cases gs with
      | nil => rfl
      | cons g gs =>
          rw [List.map_cons, writeFields_cons] at h
          exact absurd (List.cons.inj h).1 (by decide)
  | cons f fs ih =>
      cases gs with
      | nil =>
          rw [List.map_cons, writeFields_cons] at h
          exact absurd (List.cons.inj h).1 (by decide)
      | cons g gs =>
          rw [List.map_cons, List.map_cons, writeFields_cons, writeFields_cons] at h
          obtain ⟨c, x, hx, hc⟩ := exists_afterField (fs.map writeNamed)
          obtain ⟨d, y, hy, hd⟩ := exists_afterField (gs.map writeNamed)
          rw [hx, hy, writeNamed, writeNamed, writeField, writeField, List.append_assoc,
            List.append_assoc] at h
          -- The name of the field, the colon, and then the value up to what stands behind it.
          obtain ⟨hname, hvalue⟩ := quote_append_inj h
          obtain ⟨hvalue, hrest⟩ := FieldValue.write_append_inj (hfs f List.mem_cons_self)
            (hgs g List.mem_cons_self) hc hd (List.cons.inj hvalue).2
          have hfield : f = g := Prod.ext (String.toList_inj.mp hname) hvalue
          rw [← hx, ← hy] at hrest
          have htail : fs = gs := by
            refine ih (fun e he => hfs e (List.mem_cons_of_mem f he))
              (fun e he => hgs e (List.mem_cons_of_mem g he)) ?_
            revert hrest
            cases fs <;> cases gs <;> simp [afterField]
          rw [hfield, htail]

/-! ## Guesses -/

/-- What a guess says beside its two ends. -/
inductive GuessKind where
  | inherits
  | usesType
  | usesMember (tier : HeuristicTier) (member : Option Str)

/-- A heuristic edge: of a member reference with its tier, and with nothing of the
compiler's. Lines are machine words. -/
structure Guess where
  kind : GuessKind
  fromFile : Str
  fromLine : Nat
  isWord : fromLine < 2 ^ 64
  toDef : Str
  toFile : Str

namespace Guess

def edge (g : Guess) : Edge :=
  match g.kind with
  | .inherits => .inherits g.fromFile g.fromLine g.toDef g.toFile true
  | .usesType => .usesType g.fromFile g.fromLine g.toDef g.toFile true
  | .usesMember tier member =>
      .usesMember g.fromFile g.fromLine g.toDef g.toFile true (some tier) member none none

/-- What a guessing tier pushes for a member reference is a guess. -/
theorem ofMember_eq_edge {fromFile toDef toFile : Str} {fromLine : Nat} (isWord : fromLine < 2 ^ 64)
    (member : Option Str) (tier : HeuristicTier) :
    Edge.ofMember fromFile fromLine toDef toFile member (some tier) =
      edge ⟨.usesMember tier member, fromFile, fromLine, isWord, toDef, toFile⟩ := rfl

end Guess

namespace GuessKind

def text : GuessKind → Str
  | inherits => "inherits".toList
  | usesType => "uses-type".toList
  | usesMember _ _ => "uses-member".toList

/-- What stands for the tier and the member in a key. -/
def tierText : GuessKind → Str
  | usesMember tier _ => tier.text
  | _ => ['-']

def memberText : GuessKind → Str
  | usesMember _ member => member.getD ['-']
  | _ => ['-']

end GuessKind

namespace Guess

/-- The fields of a key behind its kind, a space between each two. -/
def rest (g : Guess) : Str :=
  g.fromFile ++ ' ' :: (decimal g.fromLine ++ ' ' :: (g.toDef ++ ' ' :: (g.toFile ++
    ' ' :: (g.kind.tierText ++ ' ' :: g.kind.memberText))))

theorem joined_seven (kind a b c d e f : Str) :
    List.intercalate [' '] [kind, a, b, c, d, e, f] =
      kind ++ ' ' :: (a ++ ' ' :: (b ++ ' ' :: (c ++ ' ' :: (d ++ ' ' :: (e ++ ' ' :: f))))) := by
  simp

theorem heuristicEdgeKey_edge (g : Guess) :
    heuristicEdgeKey g.edge = some (g.kind.text ++ ' ' :: g.rest) := by
  obtain ⟨kind, fromFile, fromLine, isWord, toDef, toFile⟩ := g
  rcases kind with _ | _ | ⟨_ | _, member⟩ <;> exact congrArg some (joined_seven _ _ _ _ _ _ _)

theorem isPlain_of_mem_fields (g : Guess) : ∀ f ∈ g.edge.fields, f.2.isPlain := by
  obtain ⟨kind, fromFile, fromLine, isWord, toDef, toFile⟩ := g
  intro f hf
  rcases kind with _ | _ | ⟨tier, member⟩
  · simp only [edge, Edge.fields, Edge.opening, Edge.target, flagged, List.mem_append,
      List.mem_cons, List.not_mem_nil, or_false, if_pos] at hf
    rcases hf with ((rfl | rfl | rfl) | rfl | rfl) | rfl <;> rfl
  · simp only [edge, Edge.fields, Edge.opening, Edge.target, flagged, List.mem_append,
      List.mem_cons, List.not_mem_nil, or_false, if_pos] at hf
    rcases hf with ((rfl | rfl | rfl) | rfl | rfl) | rfl <;> rfl
  · cases member <;>
      simp only [edge, Edge.fields, Edge.opening, Edge.target, flagged, optionalText, Option.map,
        Option.toList, List.mem_append, List.mem_cons, List.not_mem_nil, or_false, if_pos] at hf
    · rcases hf with (((rfl | rfl | rfl) | rfl | rfl) | rfl) | rfl <;> rfl
    · rcases hf with ((((rfl | rfl | rfl) | rfl | rfl) | rfl) | rfl) | rfl <;> rfl

/-- Two guesses with the same bytes are the same edge. -/
theorem edge_eq_of_serialize {g g' : Guess} (h : g.edge.serialize = g'.edge.serialize) :
    g.edge = g'.edge := by
  have hfields : g.edge.fields = g'.edge.fields :=
    writeFields_inj g.isPlain_of_mem_fields g'.isPlain_of_mem_fields (List.cons.inj h).2
  obtain ⟨kind, fromFile, fromLine, isWord, toDef, toFile⟩ := g
  obtain ⟨kind', fromFile', fromLine', isWord', toDef', toFile'⟩ := g'
  rcases kind with _ | _ | ⟨tier, member⟩ <;> rcases kind' with _ | _ | ⟨tier', member'⟩ <;>
    simp [edge, Edge.fields, Edge.opening, Edge.target, flagged, optionalText] at hfields ⊢
  · exact hfields
  · exact hfields
  · obtain ⟨hfrom, hline, hto, hfile, htier, hmember⟩ := hfields
    refine ⟨hfrom, hline, hto, hfile, HeuristicTier.text_injective htier, ?_⟩
    cases member <;> cases member' <;> simp at hmember ⊢
    exact hmember

end Guess

/-! ## Keys and their words -/

/-- The words of a text, a space between each two. -/
def words (s : Str) : List Str := s.splitOn ' '

theorem words_ne_nil (s : Str) : words s ≠ [] := List.splitOn_ne_nil ' ' s

theorem words_append (s t : Str) : words (s ++ ' ' :: t) = words s ++ words t :=
  List.splitOn_append_cons_self s t

theorem words_eq_singleton {s : Str} (h : ' ' ∉ s) : words s = [s] := List.splitOn_eq_singleton h

theorem words_inj {s t : Str} (h : words s = words t) : s = t := by
  have hjoined := congrArg (List.intercalate [' ']) h
  rwa [words, words, List.intercalate_splitOn, List.intercalate_splitOn] at hjoined

/-- A word stands in its text between two spaces, or at an end. -/
theorem exists_of_words {s : Str} {before after : List Str} {w : Str}
    (h : words s = before ++ w :: after) :
    ∃ pre post, s = pre ++ w ++ post ∧
      (before = [] ∧ pre = [] ∨ ∃ a, pre = a ++ [' ']) ∧
      (after = [] ∧ post = [] ∨ ∃ b, post = ' ' :: b) := by
  have hs : s = List.intercalate [' '] (before ++ w :: after) := by
    rw [← h, words, List.intercalate_splitOn]
  have hafter : ∃ post, List.intercalate [' '] (w :: after) = w ++ post ∧
      (after = [] ∧ post = [] ∨ ∃ b, post = ' ' :: b) := by
    cases after with
    | nil => exact ⟨[], by simp, Or.inl ⟨rfl, rfl⟩⟩
    | cons v vs => exact ⟨' ' :: List.intercalate [' '] (v :: vs), by simp, Or.inr ⟨_, rfl⟩⟩
  obtain ⟨post, hpost, hpost'⟩ := hafter
  have hbefore : ∀ before : List Str, ∃ pre,
      List.intercalate [' '] (before ++ w :: after) = pre ++ List.intercalate [' '] (w :: after) ∧
      (before = [] ∧ pre = [] ∨ ∃ a, pre = a ++ [' ']) := by
    intro before
    induction before with
    | nil => exact ⟨[], rfl, Or.inl ⟨rfl, rfl⟩⟩
    | cons v vs ih =>
        obtain ⟨pre, hpre, hpre'⟩ := ih
        refine ⟨v ++ ' ' :: pre, ?_, Or.inr ?_⟩
        · rw [List.cons_append, List.intercalate_cons_of_ne_nil (by simp), hpre]
          simp
        · rcases hpre' with ⟨-, rfl⟩ | ⟨a, rfl⟩
          · exact ⟨v, rfl⟩
          · exact ⟨v ++ ' ' :: a, by simp⟩
  obtain ⟨pre, hpre, hpre'⟩ := hbefore before
  exact ⟨pre, post, by rw [hs, hpre, hpost, List.append_assoc], hpre', hpost'⟩

/-- A machine word in decimal. -/
def LineWord (w : Str) : Prop := ∃ n < 2 ^ 64, w = decimal n

def TierWord (w : Str) : Prop := ∃ t : HeuristicTier, w = t.text

/-- Two readings of one list of words, where no word of the first one's source is the line of
the second and no word of its member the tier of the second, are the same reading. -/
theorem readOneWay_unique {α : Type} {from₁ from₂ toDef toFile member₁ member₂ : List α}
    {line₁ line₂ d f tier₁ tier₂ : α} (hfrom : from₂ ≠ []) (hdef : toDef ≠ [])
    (hfile : toFile ≠ []) (hmember : member₂ ≠ []) (hline : line₂ ∉ from₁.tail)
    (htier : tier₂ ∉ member₁.dropLast)
    (h : from₁ ++ line₁ :: d :: f :: tier₁ :: member₁ =
      from₂ ++ line₂ :: (toDef ++ (toFile ++ tier₂ :: member₂))) :
    from₁ = from₂ ∧ line₁ = line₂ ∧ toDef = [d] ∧ toFile = [f] ∧ tier₁ = tier₂ ∧
      member₁ = member₂ := by
  -- The second source ends no earlier than the first: its line would be one of the first's words.
  have hlater : ∃ x, from₂ = from₁ ++ x := by
    rcases List.append_eq_append_iff.mp h with ⟨x, hx, -⟩ | ⟨x, hx, hrest⟩
    · exact ⟨x, hx⟩
    · cases x with
      | nil => exact ⟨[], by rw [hx, List.append_nil, List.append_nil]⟩
      | cons w x =>
          obtain ⟨v, vs, rfl⟩ := List.exists_cons_of_ne_nil hfrom
          rw [hx, (List.cons.inj hrest).1] at hline
          exact absurd (List.mem_append_right vs List.mem_cons_self) hline
  obtain ⟨x, rfl⟩ := hlater
  have hsplit : [line₁, d, f] ++ tier₁ :: member₁ =
      (x ++ line₂ :: (toDef ++ toFile)) ++ tier₂ :: member₂ := by
    rw [List.append_assoc] at h
    simpa using List.append_cancel_left h
  have hdefLen := List.length_pos_iff.mpr hdef
  have hfileLen := List.length_pos_iff.mpr hfile
  -- Nor does its tier stand later than the first's: it would be a word of the first's member.
  have hlen : (x ++ line₂ :: (toDef ++ toFile)).length = 3 := by
    rcases List.append_eq_append_iff.mp hsplit with ⟨y, hy, htail⟩ | ⟨y, hy, -⟩
    · cases y with
      | nil => simpa using congrArg List.length hy
      | cons t y =>
          have hmem : tier₂ ∈ member₁.dropLast := by
            rw [(List.cons.inj htail).2]
            show tier₂ ∈ (y ++ tier₂ :: member₂).dropLast
            rw [List.dropLast_append_of_ne_nil (by simp), List.dropLast_cons_of_ne_nil hmember]
            exact List.mem_append_right y List.mem_cons_self
          exact absurd hmem htier
    · have hlen := congrArg List.length hy
      simp only [List.length_append, List.length_cons, List.length_nil] at hlen ⊢
      omega
  obtain ⟨hhead, htail⟩ := List.append_inj hsplit hlen.symm
  simp only [List.length_append, List.length_cons] at hlen
  obtain rfl : x = [] := List.length_eq_zero_iff.mp (by omega)
  obtain ⟨d', rfl⟩ := List.length_eq_one_iff.mp (show toDef.length = 1 by omega)
  obtain ⟨f', rfl⟩ := List.length_eq_one_iff.mp (show toFile.length = 1 by omega)
  simp only [List.nil_append, List.cons_append, List.cons.injEq] at hhead
  obtain ⟨rfl, rfl, rfl, -⟩ := hhead
  obtain ⟨rfl, rfl⟩ := List.cons.inj htail
  exact ⟨(List.append_nil _).symm, rfl, rfl, rfl, rfl, rfl⟩

/-! ## Keys that can be read in one way -/

/-- Nothing behind the tier can be taken for a tier, and the member cannot be taken for an
absent one. -/
def GuessKind.ReadOneWay : GuessKind → Prop
  | inherits | usesType => True
  | usesMember _ member =>
      ∃ m, member = some m ∧ m ≠ ['-'] ∧ ∀ w ∈ (words m).dropLast, ¬ TierWord w

/-- The target is written without a space, and no word of the source path but the first is
a number. -/
structure Guess.ReadOneWay (g : Guess) : Prop where
  toDef : ' ' ∉ g.toDef
  toFile : ' ' ∉ g.toFile
  fromFile : ∀ w ∈ (words g.fromFile).tail, ¬ LineWord w
  kind : g.kind.ReadOneWay

/-- A kind is told by its text. -/
theorem GuessKind.of_text_eq {k k' : GuessKind} (h : k.text = k'.text) :
    (k = inherits ∧ k' = inherits) ∨ (k = usesType ∧ k' = usesType) ∨
      ∃ tier member tier' member', k = usesMember tier member ∧ k' = usesMember tier' member' := by
  have hne : "inherits".toList ≠ "uses-type".toList ∧ "inherits".toList ≠ "uses-member".toList ∧
      "uses-type".toList ≠ "uses-member".toList := by decide
  rcases k with _ | _ | ⟨tier, member⟩ <;> rcases k' with _ | _ | ⟨tier', member'⟩
  case inherits.inherits => exact Or.inl ⟨rfl, rfl⟩
  case usesType.usesType => exact Or.inr (Or.inl ⟨rfl, rfl⟩)
  case usesMember.usesMember => exact Or.inr (Or.inr ⟨tier, member, tier', member', rfl, rfl⟩)
  case inherits.usesType => exact absurd h hne.1
  case inherits.usesMember => exact absurd h hne.2.1
  case usesType.inherits => exact absurd h.symm hne.1
  case usesType.usesMember => exact absurd h hne.2.2
  case usesMember.inherits => exact absurd h.symm hne.2.1
  case usesMember.usesType => exact absurd h.symm hne.2.2

theorem GuessKind.space_not_mem_text (k : GuessKind) : ' ' ∉ k.text := by
  rcases k with _ | _ | ⟨tier, member⟩
  · show ' ' ∉ "inherits".toList
    decide
  · show ' ' ∉ "uses-type".toList
    decide
  · show ' ' ∉ "uses-member".toList
    decide

theorem GuessKind.space_not_mem_tierText (k : GuessKind) : ' ' ∉ k.tierText := by
  rcases k with _ | _ | ⟨_ | _, member⟩
  · show ' ' ∉ ['-']
    decide
  · show ' ' ∉ ['-']
    decide
  · show ' ' ∉ "ext".toList
    decide
  · show ' ' ∉ "guess".toList
    decide

namespace Guess

theorem words_rest (g : Guess) :
    words g.rest = words g.fromFile ++ decimal g.fromLine :: (words g.toDef ++ (words g.toFile ++
      g.kind.tierText :: words g.kind.memberText)) := by
  have hline : ' ' ∉ decimal g.fromLine := fun hmem => by
    have := isDigit_of_mem_decimal hmem
    revert this
    decide
  rw [rest, words_append, words_append, words_append, words_append, words_append,
    words_eq_singleton hline, words_eq_singleton g.kind.space_not_mem_tierText]
  rfl

/-- The kinds of two guesses with one key are of one constructor, and the rest of it agrees. -/
theorem words_rest_of_key {g g' : Guess}
    (h : heuristicEdgeKey g.edge = heuristicEdgeKey g'.edge) :
    g.kind.text = g'.kind.text ∧ words g.rest = words g'.rest := by
  rw [heuristicEdgeKey_edge, heuristicEdgeKey_edge] at h
  have hwords := congrArg words (Option.some.inj h)
  rw [words_append, words_append, words_eq_singleton g.kind.space_not_mem_text,
    words_eq_singleton g'.kind.space_not_mem_text] at hwords
  exact List.cons.inj hwords

/-! ### A key that can be read in one way -/

/-- No word of the member but its last is the tier of a guess of the same kind. -/
theorem tierText_not_mem {k k' : GuessKind} (hk : k.ReadOneWay) (htext : k.text = k'.text) :
    k'.tierText ∉ (words k.memberText).dropLast := by
  have hdash : (words ['-']).dropLast = [] := by rw [words_eq_singleton (by decide)]; rfl
  rcases GuessKind.of_text_eq htext with ⟨rfl, -⟩ | ⟨rfl, -⟩ | ⟨tier, member, tier', member', rfl, rfl⟩
  · show GuessKind.tierText _ ∉ (words ['-']).dropLast
    simp [hdash]
  · show GuessKind.tierText _ ∉ (words ['-']).dropLast
    simp [hdash]
  · obtain ⟨m, rfl, -, hwords⟩ := hk
    exact fun hmem => hwords _ hmem ⟨tier', rfl⟩

theorem kind_eq_of_texts {k k' : GuessKind} (hk : k.ReadOneWay) (htext : k.text = k'.text)
    (htier : k.tierText = k'.tierText) (hmember : k.memberText = k'.memberText) : k = k' := by
  rcases GuessKind.of_text_eq htext with ⟨rfl, rfl⟩ | ⟨rfl, rfl⟩ |
    ⟨tier, member, tier', member', rfl, rfl⟩
  · rfl
  · rfl
  · obtain ⟨m, rfl, hdash, -⟩ := hk
    obtain rfl : tier = tier' := HeuristicTier.text_injective htier
    cases member' with
    | none => exact absurd hmember hdash
    | some m' =>
        obtain rfl : m = m' := hmember
        rfl

theorem edge_eq_of_key {g g' : Guess} (hread : g.ReadOneWay)
    (h : heuristicEdgeKey g.edge = heuristicEdgeKey g'.edge) : g.edge = g'.edge := by
  obtain ⟨htext, hrest⟩ := words_rest_of_key h
  rw [words_rest, words_rest, words_eq_singleton hread.toDef, words_eq_singleton hread.toFile]
    at hrest
  have hline : decimal g'.fromLine ∉ (words g.fromFile).tail := fun hmem =>
    hread.fromFile _ hmem ⟨_, g'.isWord, rfl⟩
  obtain ⟨hfrom, hlines, hdef, hfile, htier, hmember⟩ :=
    readOneWay_unique (words_ne_nil _) (words_ne_nil _) (words_ne_nil _) (words_ne_nil _) hline
      (tierText_not_mem hread.kind htext) hrest
  have hkind : g.kind = g'.kind := kind_eq_of_texts hread.kind htext htier (words_inj hmember)
  rw [← words_eq_singleton hread.toDef] at hdef
  rw [← words_eq_singleton hread.toFile] at hfile
  unfold edge
  rw [hkind, words_inj hfrom, decimal_inj hlines, words_inj hdef, words_inj hfile]

/-! ### A key that can be read in another way -/

/-- A guess whose key no other bytes have: what the key is for. -/
def KeyTellsApart (g : Guess) : Prop :=
  ∀ g' : Guess, heuristicEdgeKey g.edge = heuristicEdgeKey g'.edge ↔
    g.edge.serialize = g'.edge.serialize

theorem KeyTellsApart.eq_of_rest {g : Guess} (hkey : g.KeyTellsApart) {k : Guess}
    (htext : g.kind.text = k.kind.text) (hrest : g.rest = k.rest) : g.edge = k.edge := by
  refine edge_eq_of_serialize ((hkey k).mp ?_)
  rw [heuristicEdgeKey_edge, heuristicEdgeKey_edge, htext, hrest]

theorem texts_of_edge_eq {g g' : Guess} (h : g.edge = g'.edge) :
    g.fromFile = g'.fromFile ∧ g.toDef = g'.toDef ∧ g.toFile = g'.toFile ∧ g.kind = g'.kind := by
  obtain ⟨kind, fromFile, fromLine, isWord, toDef, toFile⟩ := g
  obtain ⟨kind', fromFile', fromLine', isWord', toDef', toFile'⟩ := g'
  rcases kind with _ | _ | ⟨tier, member⟩ <;> rcases kind' with _ | _ | ⟨tier', member'⟩ <;>
    simp [edge] at h ⊢
  · exact ⟨h.1, h.2.2.1, h.2.2.2⟩
  · exact ⟨h.1, h.2.2.1, h.2.2.2⟩
  · exact ⟨h.1, h.2.2.1, h.2.2.2.1, h.2.2.2.2.1, h.2.2.2.2.2⟩

/-- A space in the id of the target may as well stand between the id and the path. -/
theorem KeyTellsApart.space_not_mem_toDef {g : Guess} (hkey : g.KeyTellsApart) :
    ' ' ∉ g.toDef := by
  intro hmem
  obtain ⟨a, b, hdef⟩ := List.append_of_mem hmem
  have heq := hkey.eq_of_rest (k := { g with toDef := a, toFile := b ++ ' ' :: g.toFile }) rfl
    (by simp [rest, hdef])
  have hlen := congrArg List.length (texts_of_edge_eq heq).2.1
  simp [hdef] at hlen

theorem KeyTellsApart.space_not_mem_toFile {g : Guess} (hkey : g.KeyTellsApart) :
    ' ' ∉ g.toFile := by
  intro hmem
  obtain ⟨a, b, hfile⟩ := List.append_of_mem hmem
  have heq := hkey.eq_of_rest (k := { g with toDef := g.toDef ++ ' ' :: a, toFile := b }) rfl
    (by simp [rest, hfile])
  have hlen := congrArg List.length (texts_of_edge_eq heq).2.2.1
  simp [hfile] at hlen
  omega

/-- A number in the source path may as well be the line: what the path goes on with, and the
line, are then taken for the start of the id. -/
theorem KeyTellsApart.not_lineWord {g : Guess} (hkey : g.KeyTellsApart) :
    ∀ w ∈ (words g.fromFile).tail, ¬ LineWord w := by
  rintro w hw ⟨n, hn, rfl⟩
  obtain ⟨v, vs, hwords⟩ := List.exists_cons_of_ne_nil (words_ne_nil g.fromFile)
  rw [hwords, List.tail_cons] at hw
  obtain ⟨before, after, hvs⟩ := List.append_of_mem hw
  rw [hvs, ← List.cons_append] at hwords
  obtain ⟨pre, post, hfrom, hpre, hpost⟩ := exists_of_words hwords
  obtain ⟨a, rfl⟩ : ∃ a, pre = a ++ [' '] := hpre.resolve_left fun h => nomatch h.1
  obtain ⟨toDef, hdef⟩ : ∃ toDef, post ++ ' ' :: (decimal g.fromLine ++ ' ' :: g.toDef) =
      ' ' :: toDef := by
    rcases hpost with ⟨-, rfl⟩ | ⟨b, rfl⟩
    · exact ⟨_, rfl⟩
    · exact ⟨_, rfl⟩
  have heq := hkey.eq_of_rest
    (k := { g with fromFile := a, fromLine := n, isWord := hn, toDef := toDef }) rfl (by
      have := congrArg (· ++ ' ' :: (g.toFile ++ ' ' :: (g.kind.tierText ++ ' ' :: g.kind.memberText)))
        hdef
      simp only [List.append_assoc, List.cons_append] at this
      simp [rest, hfrom, this])
  have hlen := congrArg List.length (texts_of_edge_eq heq).1
  simp [hfrom] at hlen

/-- A tier among the words of the member may as well be the tier, and an absent member the
member of one dash. -/
theorem KeyTellsApart.kind_readOneWay {g : Guess} (hkey : g.KeyTellsApart) :
    g.kind.ReadOneWay := by
  match hk : g.kind with
  | .inherits => trivial
  | .usesType => trivial
  | .usesMember tier none =>
      have heq := hkey.eq_of_rest (k := { g with kind := .usesMember tier (some ['-']) })
        (by rw [hk]; rfl) (by simp [rest, hk, GuessKind.tierText, GuessKind.memberText])
      have hkind := (texts_of_edge_eq heq).2.2.2
      rw [hk] at hkind
      cases hkind
  | .usesMember tier (some m) =>
      refine ⟨m, rfl, ?_, ?_⟩
      · rintro rfl
        have heq := hkey.eq_of_rest (k := { g with kind := .usesMember tier none })
          (by rw [hk]; rfl) (by simp [rest, hk, GuessKind.tierText, GuessKind.memberText])
        have hkind := (texts_of_edge_eq heq).2.2.2
        rw [hk] at hkind
        cases hkind
      · rintro w hw ⟨tier', rfl⟩
        obtain ⟨before, after, hdrop⟩ := List.append_of_mem hw
        have hwords : words m =
            before ++ tier'.text :: (after ++ [(words m).getLast (words_ne_nil m)]) := by
          have hlast := List.dropLast_append_getLast (words_ne_nil m)
          rw [hdrop, List.append_assoc] at hlast
          exact hlast.symm
        obtain ⟨pre, post, hm, hpre, hpost⟩ := exists_of_words hwords
        obtain ⟨b, rfl⟩ : ∃ b, post = ' ' :: b := hpost.resolve_left fun h => by simp at h
        obtain ⟨toFile, hfile⟩ : ∃ toFile, g.toFile ++ ' ' :: (tier.text ++ ' ' :: pre) =
            toFile ++ [' '] := by
          rcases hpre with ⟨-, rfl⟩ | ⟨a, rfl⟩
          · exact ⟨g.toFile ++ ' ' :: tier.text, by simp⟩
          · exact ⟨g.toFile ++ ' ' :: (tier.text ++ ' ' :: a), by simp⟩
        have heq := hkey.eq_of_rest
          (k := { g with kind := .usesMember tier' (some b), toFile := toFile }) (by rw [hk]; rfl) (by
            have := congrArg (· ++ tier'.text ++ ' ' :: b) hfile
            simp only [List.append_assoc, List.cons_append, List.nil_append] at this
            simp [rest, hk, GuessKind.tierText, GuessKind.memberText, hm, this])
        have hlen := congrArg List.length (texts_of_edge_eq heq).2.2.1
        have hlen' := congrArg List.length hfile
        simp at hlen hlen'
        omega

/-- **The key tells a guess from every other exactly when it can be read in one way:** the
id and the file of its target hold no space, no word of the source path but the first is a
number, and a member, if the kind has one, is there, is not a dash and holds no tier among
its words but the last. -/
theorem keyTellsApart_iff (g : Guess) : g.KeyTellsApart ↔ g.ReadOneWay := by
  constructor
  · intro hkey
    exact ⟨hkey.space_not_mem_toDef, hkey.space_not_mem_toFile, hkey.not_lineWord,
      hkey.kind_readOneWay⟩
  · intro hread g'
    constructor
    · intro h
      rw [edge_eq_of_key hread h]
    · intro h
      rw [edge_eq_of_serialize h]

/-- A use of `X` on the second line of one file, and one on the first line of another. -/
def fromLongPath : Guess where
  kind := .usesMember .guess (some "Save".toList)
  fromFile := "a.cs 1 X b.cs".toList
  fromLine := 2
  isWord := by decide
  toDef := "X".toList
  toFile := "b.cs".toList

def toLongPath : Guess where
  kind := .usesMember .guess (some "Save".toList)
  fromFile := "a.cs".toList
  fromLine := 1
  isWord := by decide
  toDef := "X".toList
  toFile := "b.cs 2 X b.cs".toList

/-- Two different edges with one key. -/
theorem longPaths_not_toldApart :
    heuristicEdgeKey fromLongPath.edge = heuristicEdgeKey toLongPath.edge ∧
      fromLongPath.edge.serialize ≠ toLongPath.edge.serialize := by
  refine ⟨by decide, ?_⟩
  intro h
  have hfrom := (texts_of_edge_eq (edge_eq_of_serialize h)).1
  exact absurd hfrom (by decide)

end Guess

end Devscout.Resolve
