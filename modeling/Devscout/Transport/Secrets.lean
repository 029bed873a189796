/-
# Devscout.Transport.Secrets -- two readings of one URI

A URI is given by its components, each of them without the delimiters that end it. Its secret
parts are the user information, the query and the fragment. The law is about two texts: it says
that a text is read like the one whose secret parts are empty, so that nothing in them has any
influence. It is proved along the cuts of the reader, one lemma for each component.

It holds of every kind of value and every URI with two exceptions, which are exactly the
places where a test does not stop at the delimiter that it should stop at.
-/

import Devscout.Transport.Values

namespace Devscout.Transport

open Lib

/-! ## URIs -/

structure Authority where
  userinfo : Option Str
  server : Str
  deriving DecidableEq

/-- The components of a URI. -/
structure Uri where
  scheme : Str
  authority : Option Authority
  path : Str
  query : Option Str
  fragment : Option Str
  deriving DecidableEq

def Authority.text (a : Authority) : Str := a.userinfo.elim [] (· ++ ['@']) ++ a.server

/-- The query and the fragment, with their delimiters. -/
def Uri.suffix (u : Uri) : Str := u.query.elim [] ('?' :: ·) ++ u.fragment.elim [] ('#' :: ·)

/-- What stands before the path. -/
def Uri.front (u : Uri) : Str := u.authority.elim [] fun a => "//".toList ++ a.text

def Uri.rest (u : Uri) : Str := u.front ++ u.path ++ u.suffix

def Uri.text (u : Uri) : Str := u.scheme ++ ':' :: u.rest

/-- No component holds a delimiter that ends it. -/
structure Uri.WellFormed (u : Uri) : Prop where
  scheme : isScheme u.scheme = true
  userinfo : ∀ a, u.authority = some a → ∀ s, a.userinfo = some s → ∀ c ∈ s, c ∉ ['/', '?', '#']
  server : ∀ a, u.authority = some a → ∀ c ∈ a.server, c ∉ ['@', '/', '?', '#']
  path : ∀ c ∈ u.path, c ∉ ['?', '#']
  rooted : u.authority ≠ none → u.path = [] ∨ u.path.head? = some '/'
  single : u.authority = none → ¬ "//".toList <+: u.path
  query : ∀ q, u.query = some q → '#' ∉ q

def Authority.bare (a : Authority) : Authority := { a with userinfo := a.userinfo.map fun _ => [] }

/-- The URI with its secret parts emptied: they stay present. -/
def Uri.bare (u : Uri) : Uri :=
  { u with
    authority := u.authority.map Authority.bare
    query := u.query.map fun _ => []
    fragment := u.fragment.map fun _ => [] }

/-- **No influence**: URIs that differ in their secret parts only are read alike. -/
def Uri.Law (val : Val) (u : Uri) : Prop :=
  ∀ u' : Uri, u'.WellFormed → u'.bare = u.bare → classify u'.text val = classify u.text val

/-- A query or a fragment that the partition of an ARN goes on into. -/
def Uri.InArn (val : Val) (u : Uri) : Prop :=
  val = .entityName ∧ u.scheme = "arn".toList ∧ u.authority = none ∧ "aws".toList <+: u.path ∧
    ':' ∉ u.path ∧ (u.query.isSome ∨ u.fragment.isSome)

/-- A query or a fragment whose `://` decides what a host name is read as. -/
def Uri.InHostName (val : Val) (u : Uri) : Prop :=
  val = .hostName ∧ u.authority = none ∧ ¬ "://".toList <:+: u.scheme ++ ':' :: u.path ∧
    (u.query.isSome ∨ u.fragment.isSome)

/-- What there is to read in an authority and a path. -/
def Uri.read (u : Uri) : Except String (Str × List Str) :=
  match u.authority with
  | none => .error MALFORMED
  | some a => hostAndSegments a.server (u.path.drop 1)

/-! ## The cuts of a well-formed URI -/

theorem splitOnce_append {c : Char} {a : Str} (h : c ∉ a) (b : Str) :
    splitOnce c (a ++ c :: b) = some (a, b) := by
  have hne : ∀ x ∈ a, (x != c) = true := fun x hx => bne_iff_ne.mpr fun hxc => h (hxc ▸ hx)
  rw [splitOnce, if_pos (by simp), List.takeWhile_append_of_pos hne, List.dropWhile_append_of_pos hne]
  simp

/-- The query is cut where the first of its delimiters stands. -/
theorem stripQuery_append {a : Str} (ha : ∀ c ∈ a, c ∉ ['?', '#']) {b : Str}
    (hb : ∀ c, b.head? = some c → c ∈ ['?', '#']) : stripQuery (a ++ b) = a := by
  have hall : ∀ c ∈ a, (c != '?' && c != '#') = true := by
    intro c hc
    simpa using ha c hc
  rw [stripQuery, List.takeWhile_append_of_pos hall]
  rcases b with _ | ⟨c, b⟩
  · rw [List.takeWhile_nil, List.append_nil]
  · have hstop : (c != '?' && c != '#') = false := by
      have hmem := hb c rfl
      simp only [List.mem_cons, List.not_mem_nil, or_false] at hmem
      rcases hmem with rfl | rfl <;> rfl
    rw [List.takeWhile_cons_of_neg (by rw [hstop]; exact Bool.false_ne_true), List.append_nil]

theorem suffix_head (u : Uri) : ∀ c, u.suffix.head? = some c → c ∈ ['?', '#'] := by
  intro c hc
  rcases u with ⟨scheme, auth, path, _ | q, _ | f⟩
  · cases hc
  · cases hc
    decide
  · cases hc
    decide
  · cases hc
    decide

/-- A prefix without any of the characters that a second text can begin with. -/
theorem prefix_of_append {p a b : Str} (hb : ∀ c, b.head? = some c → c ∉ p) (h : p <+: a ++ b) : p <+: a := by
  rcases List.prefix_or_prefix_of_prefix h (List.prefix_append a b) with hpa | ⟨t, rfl⟩
  · exact hpa
  · rcases t with _ | ⟨c, t⟩
    · rw [List.append_nil]
    · obtain ⟨r, rfl⟩ := (List.prefix_append_right_inj a).mp h
      exact absurd (List.mem_append_right a List.mem_cons_self) (hb c rfl)

/-- User information is cut off at the last `@`. -/
theorem hostOf_text {a : Authority} (h : ∀ c ∈ a.server, c ∉ ['@', '/', '?', '#']) :
    hostOf a.text = hostOf a.server := by
  have hat : '@' ∉ a.server := fun hmem => h '@' hmem (by decide)
  have hserver : Text.rsplit '@' a.server = none := Text.rsplit_eq_none_iff.mpr hat
  rcases a with ⟨_ | user, server⟩
  · rfl
  · have htext : Authority.text ⟨some user, server⟩ = user ++ '@' :: server := by
      simp [Authority.text]
    unfold hostOf
    rw [htext, Text.rsplit_append user hat, hserver]
    rfl

section WellFormed

variable {u : Uri} (hu : u.WellFormed)

include hu

theorem colon_not_mem_scheme : ':' ∉ u.scheme := by
  intro hmem
  have hscheme := hu.scheme
  rcases hcases : u.scheme with _ | ⟨c, cs⟩
  · rw [hcases] at hmem
    cases hmem
  · rw [hcases] at hmem hscheme
    unfold isScheme at hscheme
    rw [List.head?_cons, Option.any_some, List.tail_cons, Bool.and_eq_true, List.all_eq_true] at hscheme
    rcases List.mem_cons.mp hmem with rfl | hmem
    · exact absurd hscheme.1 (by decide)
    · exact absurd (hscheme.2 ':' hmem) (by decide)

theorem splitScheme_text : splitScheme u.text = some (u.scheme.map Char.toLower, u.rest) := by
  unfold splitScheme
  rw [Uri.text, splitOnce_append (colon_not_mem_scheme hu)]
  show (if isScheme u.scheme = true then _ else _) = _
  rw [if_pos hu.scheme]

theorem front_chars : ∀ c ∈ u.front, c ∉ ['?', '#'] := by
  intro c hc hmem
  unfold Uri.front at hc
  rcases hauth : u.authority with _ | a
  · rw [hauth] at hc
    cases hc
  · rw [hauth, Option.elim_some, List.mem_append] at hc
    have hslash : c ∈ ['/', '?', '#'] := List.mem_cons_of_mem _ hmem
    rcases hc with hc | hc
    · exact absurd hmem ((forall_chars (by decide) : ∀ c ∈ "//".toList, c ∉ ['?', '#']) c hc)
    · rw [Authority.text, List.mem_append] at hc
      rcases hc with hc | hc
      · rcases huser : a.userinfo with _ | user
        · rw [huser] at hc
          cases hc
        · rw [huser, Option.elim_some, List.mem_append] at hc
          rcases hc with hc | hc
          · exact hu.userinfo a hauth user huser c hc hslash
          · rw [List.mem_singleton.mp hc] at hmem
            exact absurd hmem (by decide)
      · exact hu.server a hauth c hc (List.mem_cons_of_mem _ hslash)

/-- Without its query and fragment, the rest of a URI is what stands before them. -/
theorem stripQuery_rest : stripQuery u.rest = u.front ++ u.path := by
  refine stripQuery_append (fun c hc => ?_) (suffix_head u)
  rcases List.mem_append.mp hc with hc | hc
  · exact front_chars hu c hc
  · exact hu.path c hc

theorem text_chars {a : Authority} (hauth : u.authority = some a) : '/' ∉ a.text := by
  intro hmem
  rw [Authority.text, List.mem_append] at hmem
  rcases hmem with hmem | hmem
  · rcases huser : a.userinfo with _ | user
    · rw [huser] at hmem
      cases hmem
    · rw [huser, Option.elim_some, List.mem_append] at hmem
      rcases hmem with hmem | hmem
      · exact hu.userinfo a hauth user huser '/' hmem (by decide)
      · exact absurd hmem (by decide)
  · exact hu.server a hauth '/' hmem (by decide)

/-- What `authority` reads of a URI: the server and the path, and nothing else. -/
theorem authority_rest : authority u.rest = u.read := by
  unfold authority Uri.read
  rcases hauth : u.authority with _ | a
  · have hrest : u.rest = u.path ++ u.suffix := by
      rw [Uri.rest, Uri.front, hauth, Option.elim_none, List.nil_append]
    have hno : ¬"//".toList.isPrefixOf u.rest = true := by
      rw [List.isPrefixOf_iff_prefix, hrest]
      intro hpre
      refine hu.single hauth (prefix_of_append (fun c hc hmem => ?_) hpre)
      have hdelim := suffix_head u c hc
      exact absurd hdelim ((forall_chars (by decide) : ∀ c ∈ "//".toList, c ∉ ['?', '#']) c hmem)
    rw [if_neg hno]
  · have hrest : u.rest = '/' :: '/' :: (a.text ++ u.path ++ u.suffix) := by
      rw [Uri.rest, Uri.front, hauth]
      rfl
    have hchars : ∀ c ∈ a.text ++ u.path, c ∉ ['?', '#'] := by
      intro c hc
      rcases List.mem_append.mp hc with hc | hc
      · refine front_chars hu c ?_
        rw [Uri.front, hauth]
        exact List.mem_append_right _ hc
      · exact hu.path c hc
    have hhost (path : Str) : hostAndSegments a.text path = hostAndSegments a.server path := by
      unfold hostAndSegments
      rw [hostOf_text (hu.server a hauth)]
    have hyes : "//".toList.isPrefixOf u.rest = true := by
      rw [List.isPrefixOf_iff_prefix, hrest]
      exact ⟨_, rfl⟩
    rw [if_pos hyes, hrest]
    have hstrip : stripQuery (List.drop 2 ('/' :: '/' :: (a.text ++ u.path ++ u.suffix))) = a.text ++ u.path :=
      stripQuery_append hchars (suffix_head u)
    have hslash := text_chars hu hauth
    have hcut : (splitOnce '/' (a.text ++ u.path)).getD (a.text ++ u.path, []) = (a.text, u.path.drop 1) := by
      rcases hpath : u.path with _ | ⟨c, path⟩
      · rw [List.append_nil]
        unfold splitOnce
        rw [if_neg hslash]
        rfl
      · obtain hnil | hhead := hu.rooted (by rw [hauth]; exact Option.some_ne_none a)
        · rw [hpath] at hnil
          cases hnil
        · rw [hpath] at hhead
          cases hhead
          rw [splitOnce_append hslash]
          rfl
    rw [hstrip]
    show hostAndSegments ((splitOnce '/' (a.text ++ u.path)).getD (a.text ++ u.path, [])).1
      ((splitOnce '/' (a.text ++ u.path)).getD (a.text ++ u.path, [])).2 = _
    rw [hcut]
    exact hhost (u.path.drop 1)

/-! ## Emptied secret parts -/

theorem wellFormed_bare : u.bare.WellFormed := by
  have hbare : ∀ a', u.bare.authority = some a' → ∃ a, u.authority = some a ∧ a' = a.bare := by
    intro a' ha'
    obtain ⟨a, ha, rfl⟩ := Option.map_eq_some_iff.mp ha'
    exact ⟨a, ha, rfl⟩
  refine ⟨hu.scheme, ?_, ?_, hu.path, ?_, ?_, ?_⟩
  · intro a' ha' s hs c hc
    obtain ⟨a, -, rfl⟩ := hbare a' ha'
    obtain ⟨-, -, rfl⟩ := Option.map_eq_some_iff.mp hs
    cases hc
  · intro a' ha'
    obtain ⟨a, ha, rfl⟩ := hbare a' ha'
    exact hu.server a ha
  · intro hne
    exact hu.rooted fun hnone => hne (by rw [Uri.bare, hnone, Option.map_none])
  · intro hnone
    exact hu.single (Option.map_eq_none_iff.mp hnone)
  · intro q hq
    obtain ⟨-, -, rfl⟩ := Option.map_eq_some_iff.mp hq
    exact List.not_mem_nil

end WellFormed

theorem read_bare (u : Uri) : u.bare.read = u.read := by
  rcases u with ⟨scheme, _ | a, path, query, fragment⟩ <;> rfl

/-- Either nothing is secret, or a delimiter that no grammar allows stands in both texts. -/
theorem bare_cases (u : Uri) :
    u.bare = u ∨ ∃ c ∈ ['@', '?', '#'], c ∈ u.text ∧ c ∈ u.bare.text := by
  rcases u with ⟨scheme, auth, path, query, fragment⟩
  rcases query with _ | q
  · rcases fragment with _ | f
    · rcases auth with _ | ⟨_ | user, server⟩
      · exact .inl rfl
      · exact .inl rfl
      · refine .inr ⟨'@', by decide, ?_, ?_⟩ <;>
          simp [Uri.text, Uri.rest, Uri.front, Uri.bare, Authority.bare, Authority.text]
    · refine .inr ⟨'#', by decide, ?_, ?_⟩ <;> simp [Uri.text, Uri.rest, Uri.suffix, Uri.bare]
  · refine .inr ⟨'?', by decide, ?_, ?_⟩ <;> simp [Uri.text, Uri.rest, Uri.suffix, Uri.bare]

/-- A kind that is read by a grammar alone. -/
theorem named_bare (u : Uri) {ok : Str → Bool} (hok : ∀ text, ok text = true → Clean text)
    (parsed : Str → Parsed) :
    classify.named (ok u.bare.text) (parsed u.bare.text) = classify.named (ok u.text) (parsed u.text) := by
  rcases bare_cases u with heq | ⟨c, hc, htext, hbare⟩
  · rw [heq]
  · have hno {text : Str} (hmem : c ∈ text) : ok text = false := by
      rw [← Bool.not_eq_true]
      intro htrue
      have hdelim : ∀ c ∈ ['@', '?', '#'], c ∈ "@?#=".toList := forall_chars (by decide)
      exact ((hok text htrue).2 c hmem).1 (hdelim c hc)
    rw [hno htext, hno hbare]
    rfl

section WellFormed

variable {u : Uri} (hu : u.WellFormed)

include hu

theorem hostUri_bare : hostUri u.bare.text = hostUri u.text := by
  unfold hostUri
  rw [splitScheme_text hu, splitScheme_text (wellFormed_bare hu)]
  dsimp only
  rw [authority_rest hu, authority_rest (wellFormed_bare hu), read_bare]
  rfl

theorem addressUri_bare : addressUri u.bare.text = addressUri u.text := by
  unfold addressUri
  rw [splitScheme_text hu, splitScheme_text (wellFormed_bare hu)]
  dsimp only
  rw [authority_rest hu, authority_rest (wellFormed_bare hu), read_bare,
    stripQuery_rest hu, stripQuery_rest (wellFormed_bare hu)]
  rcases hauth : u.authority with _ | a
  · have hfront : u.front = [] := by rw [Uri.front, hauth, Option.elim_none]
    have hbare : u.bare.front = [] := by rw [Uri.front, Uri.bare, hauth]; rfl
    rw [hfront, hbare]
    rfl
  · -- a name cannot begin with two slashes, whatever follows them
    have hslash (v : Uri) (b : Authority) (hb : v.authority = some b) :
        "//".toList.isPrefixOf (v.front ++ v.path) = true := by
      rw [List.isPrefixOf_iff_prefix, Uri.front, hb]
      exact ⟨b.text ++ v.path, rfl⟩
    rw [hslash u a hauth, hslash u.bare a.bare (by rw [Uri.bare, hauth]; rfl)]
    rfl

end WellFormed

/-! ## Entity names and host names -/

theorem suffix_eq_nil_iff {u : Uri} : u.suffix = [] ↔ u.query = none ∧ u.fragment = none := by
  rcases u with ⟨scheme, auth, path, _ | q, _ | f⟩ <;> simp [Uri.suffix]

theorem suffix_bare_eq_nil_iff {u : Uri} : u.bare.suffix = [] ↔ u.suffix = [] := by
  rw [suffix_eq_nil_iff, suffix_eq_nil_iff]
  simp [Uri.bare]

theorem bare_eq_self {u : Uri} (hauth : u.authority = none) (hsuffix : u.suffix = []) : u.bare = u := by
  obtain ⟨hquery, hfragment⟩ := suffix_eq_nil_iff.mp hsuffix
  rcases u with ⟨scheme, auth, path, query, fragment⟩
  subst hauth hquery hfragment
  rfl

/-- What an ARN that is read looks like. -/
theorem arnParts_cases (parts : List Str) :
    arnParts parts = .error UNREAD ∨ ∃ first part others,
      parts = first :: part :: others ∧ "aws".toList <+: part ∧ ∀ other ∈ others, Clean other := by
  unfold arnParts
  split
  · rename_i first part service region account name
    split
    · rename_i hgood
      simp only [Bool.and_eq_true, Bool.or_eq_true, beq_iff_eq, List.isPrefixOf_iff_prefix] at hgood
      obtain ⟨⟨⟨⟨haws, hservice⟩, hregion⟩, haccount⟩, hname⟩ := hgood
      refine .inr ⟨first, part, [service, region, account, name], rfl, haws, ?_⟩
      have hknown : isName service = true := by
        rcases hservice with rfl | rfl <;> decide +kernel
      simp only [List.forall_mem_cons]
      exact ⟨clean_of_all plain_nameChar hknown, clean_region hregion, clean_account haccount,
        clean_of_all plain_nameChar hname, nofun⟩
    · exact .inl rfl
  · exact .inl rfl

section WellFormed

variable {u : Uri} (hu : u.WellFormed)

include hu

/-- Outside of the exception, an ARN with a secret part is not read. -/
theorem arn_of_secret (hsuffix : u.authority = none → u.suffix ≠ [])
    (hno : ¬(u.authority = none ∧ "aws".toList <+: u.path ∧ ':' ∉ u.path)) : arn u.text = .error UNREAD := by
  have hsplit : u.text.splitOn ':' = u.scheme :: u.rest.splitOn ':' :=
    List.splitOn_append_cons_self_of_not_mem (colon_not_mem_scheme hu) u.rest
  rcases arnParts_cases (u.text.splitOn ':') with herror | ⟨first, part, others, hparts, haws, hclean⟩
  · exact herror
  exfalso
  rw [hsplit] at hparts
  have hrest : u.rest.splitOn ':' = part :: others := (List.cons.inj hparts).2
  have hpre : "aws".toList <+: u.rest := by
    refine haws.trans ?_
    have hjoin : [':'].intercalate (u.rest.splitOn ':') = u.rest := List.intercalate_splitOn ':'
    rw [← hjoin, hrest]
    rcases others with _ | ⟨o, others⟩
    · rw [List.intercalate_singleton]
    · rw [List.intercalate_cons_of_ne_nil (List.cons_ne_nil o others), List.append_assoc]
      exact List.prefix_append _ _
  rcases hauth : u.authority with _ | a
  · have hrest' : u.rest = u.path ++ u.suffix := by
      rw [Uri.rest, Uri.front, hauth, Option.elim_none, List.nil_append]
    obtain ⟨d, t, hd⟩ := List.exists_cons_of_ne_nil (hsuffix hauth)
    have hdelim : d ∈ ['?', '#'] := suffix_head u d (by rw [hd, List.head?_cons])
    -- the partition would have to be a prefix of the path, so that a colon ends it there
    have hpath : "aws".toList <+: u.path := by
      rw [hrest'] at hpre
      refine prefix_of_append (fun c hc hmem => ?_) hpre
      exact (forall_chars (by decide) : ∀ c ∈ "aws".toList, c ∉ ['?', '#']) c hmem (suffix_head u c hc)
    have hcolon : ':' ∈ u.path := by
      by_contra hcolon
      exact hno ⟨hauth, hpath, hcolon⟩
    obtain ⟨x, y, hxy, hx⟩ := List.eq_append_cons_of_mem hcolon
    have hothers : others = (y ++ d :: t).splitOn ':' := by
      rw [hrest', hxy, hd, List.append_assoc, List.cons_append,
        List.splitOn_append_cons_self_of_not_mem hx] at hrest
      exact (List.cons.inj hrest).2.symm
    have hne : d ≠ ':' := by
      rintro rfl
      exact absurd hdelim (by decide)
    obtain ⟨p, hp, hmem⟩ := mem_parts (List.mem_append_right y (List.mem_cons_self (a := d) (l := t))) hne
    have hsecret : ∀ d ∈ ['?', '#'], d ∈ "@?#=".toList := forall_chars (by decide)
    exact ((hclean p (hothers ▸ hp)).2 d hmem).1 (hsecret d hdelim)
  · rw [Uri.rest, Uri.front, hauth] at hpre
    obtain ⟨r, hr⟩ := hpre
    cases hr

theorem entityName_bare (hno : ¬u.InArn .entityName) :
    classify u.bare.text .entityName = classify u.text .entityName := by
  have hstarts {v : Uri} (hv : v.WellFormed) : "arn:".toList.isPrefixOf v.text = true ↔ v.scheme = "arn".toList := by
    rw [List.isPrefixOf_iff_prefix]
    constructor
    · rintro ⟨r, hr⟩
      have hcut : splitOnce ':' ("arn".toList ++ ':' :: r) = splitOnce ':' v.text := congrArg (splitOnce ':') hr
      rw [splitOnce_append (by decide), Uri.text, splitOnce_append (colon_not_mem_scheme hv)] at hcut
      exact (Prod.mk.inj (Option.some.inj hcut)).1.symm
    · intro hscheme
      rw [Uri.text, hscheme]
      exact ⟨v.rest, rfl⟩
  unfold classify
  dsimp only
  by_cases harn : u.scheme = "arn".toList
  · rw [if_pos ((hstarts hu).mpr harn), if_pos ((hstarts (wellFormed_bare hu)).mpr harn)]
    by_cases hplain : u.authority = none ∧ u.suffix = []
    · rw [bare_eq_self hplain.1 hplain.2]
    · have hsuffix : u.authority = none → u.suffix ≠ [] := fun hauth hnil => hplain ⟨hauth, hnil⟩
      have hpath : ¬(u.authority = none ∧ "aws".toList <+: u.path ∧ ':' ∉ u.path) := by
        rintro ⟨hauth, haws, hcolon⟩
        refine hno ⟨rfl, harn, hauth, haws, hcolon, ?_⟩
        by_contra hnone
        simp only [not_or, Bool.not_eq_true, Option.isSome_eq_false_iff, Option.isNone_iff_eq_none] at hnone
        exact hsuffix hauth (suffix_eq_nil_iff.mpr hnone)
      have hbare (h : u.bare.authority = none) : u.authority = none := Option.map_eq_none_iff.mp h
      rw [arn_of_secret hu hsuffix hpath, arn_of_secret (wellFormed_bare hu)
        (fun h hnil => hsuffix (hbare h) (suffix_bare_eq_nil_iff.mp hnil))
        (fun h => hpath ⟨hbare h.1, h.2⟩)]
  · rw [if_neg (fun h => harn ((hstarts hu).mp h)), if_neg (fun h => harn ((hstarts (wellFormed_bare hu)).mp h))]
    exact named_bare u (fun _ h => clean_of_all plain_nameChar h) valueOf

theorem hostName_bare (hno : ¬u.InHostName .hostName) :
    classify u.bare.text .hostName = classify u.text .hostName := by
  have huri {v : Uri} (h : v.authority ≠ none ∨ "://".toList <:+: v.scheme ++ ':' :: v.path) :
      "://".toList <:+: v.text := by
    rcases hauth : v.authority with _ | a
    · have htext : v.text = (v.scheme ++ ':' :: v.path) ++ v.suffix := by
        simp [Uri.text, Uri.rest, Uri.front, hauth]
      rw [htext]
      exact (h.resolve_left (· hauth)).trans (List.prefix_append _ _).isInfix
    · refine ⟨v.scheme, a.text ++ v.path ++ v.suffix, ?_⟩
      simp [Uri.text, Uri.rest, Uri.front, hauth]
  by_cases hplain : u.authority = none ∧ u.suffix = []
  · rw [bare_eq_self hplain.1 hplain.2]
  · have hcase : u.authority ≠ none ∨ "://".toList <:+: u.scheme ++ ':' :: u.path := by
      by_contra hneither
      push Not at hneither
      refine hno ⟨rfl, hneither.1, hneither.2, ?_⟩
      by_contra hnone
      simp only [not_or, Bool.not_eq_true, Option.isSome_eq_false_iff, Option.isNone_iff_eq_none] at hnone
      exact hplain ⟨hneither.1, suffix_eq_nil_iff.mpr hnone⟩
    have hbare : u.bare.authority ≠ none ∨ "://".toList <:+: u.bare.scheme ++ ':' :: u.bare.path :=
      hcase.imp_left fun hne hnone => hne (Option.map_eq_none_iff.mp hnone)
    unfold classify
    dsimp only
    rw [if_pos (decide_eq_true (huri hcase)), if_pos (decide_eq_true (huri hbare))]
    exact hostUri_bare hu

end WellFormed

/-! ## No influence -/

theorem inArn_bare {u : Uri} {val : Val} : u.bare.InArn val ↔ u.InArn val := by
  simp [Uri.InArn, Uri.bare]

theorem inHostName_bare {u : Uri} {val : Val} : u.bare.InHostName val ↔ u.InHostName val := by
  simp [Uri.InHostName, Uri.bare]

/-- A URI is read like the one whose secret parts are empty. -/
theorem classify_bare {u : Uri} (hu : u.WellFormed) {val : Val} (harn : ¬u.InArn val)
    (hhost : ¬u.InHostName val) : classify u.bare.text val = classify u.text val := by
  cases val with
  | name | formatterArg => exact named_bare u (fun _ h => clean_of_all plain_nameChar h) valueOf
  | key => exact named_bare u (fun _ h => clean_of_all plain_keyChar h) valueOf
  | entityName => exact entityName_bare hu harn
  | address => exact addressUri_bare hu
  | hostName => exact hostName_bare hu hhost
  | hostUri => exact hostUri_bare hu
  | virtualHost =>
      exact named_bare u (fun _ h => clean_of_all plain_virtualHostChar h) fun text => { virtualHost := some text }
  | region => exact named_bare u (fun _ h => clean_region h) fun text => { region := some text }
  | ignore => rfl

/-- The URI whose last secret part holds a given text and whose others are empty. -/
def Uri.put (s : Str) (u : Uri) : Uri :=
  if u.fragment.isSome then { u.bare with fragment := some s } else { u.bare with query := some s }

/-- The delimiters in front of the last secret part. -/
def Uri.delims (u : Uri) : Str :=
  if u.fragment.isSome then u.query.elim [] (fun _ => ['?']) ++ ['#'] else ['?']

theorem delims_spec (u : Uri) : u.delims ≠ [] ∧ ∀ c ∈ u.delims, c ∈ ['?', '#'] := by
  rcases u with ⟨scheme, auth, path, _ | q, _ | f⟩ <;> simp [Uri.delims]

section Put

variable {u : Uri} (hauth : u.authority = none) (hslot : u.query.isSome ∨ u.fragment.isSome) (s : Str)

include hauth hslot

theorem put_text : (u.put s).text = u.scheme ++ ':' :: (u.path ++ u.delims ++ s) := by
  rcases u with ⟨scheme, auth, path, _ | q, _ | f⟩
  · simp at hslot
  all_goals
    subst hauth
    simp [Uri.put, Uri.text, Uri.rest, Uri.front, Uri.suffix, Uri.delims, Uri.bare]

theorem put_bare : (u.put s).bare = u.bare := by
  rcases u with ⟨scheme, auth, path, _ | q, _ | f⟩
  · simp at hslot
  all_goals
    subst hauth
    rfl

omit hauth hslot in
theorem put_wellFormed (hu : u.WellFormed) (hs : '#' ∉ s) : (u.put s).WellFormed := by
  have hbare := wellFormed_bare hu
  unfold Uri.put
  split
  · exact ⟨hbare.scheme, hbare.userinfo, hbare.server, hbare.path, hbare.rooted, hbare.single, hbare.query⟩
  · refine ⟨hbare.scheme, hbare.userinfo, hbare.server, hbare.path, hbare.rooted, hbare.single, ?_⟩
    intro q hq
    rw [← Option.some.inj hq]
    exact hs

/-- Under the law, all texts in the last secret part are read alike. -/
theorem put_read {val : Val} (hu : u.WellFormed) (hlaw : u.Law val) (hs : '#' ∉ s) :
    classify (u.put s).text val = classify (u.put []).text val :=
  (hlaw (u.put s) (put_wellFormed s hu hs) (put_bare hauth hslot s)).trans
    (hlaw (u.put []) (put_wellFormed [] hu List.not_mem_nil) (put_bare hauth hslot [])).symm

end Put

/-- The partition of an ARN goes on into the secret part, and the other fields follow there. -/
theorem inArn_reads {u : Uri} {val : Val} (hu : u.WellFormed) (h : u.InArn val) : ¬u.Law val := by
  obtain ⟨rfl, hscheme, hauth, haws, hcolon, hslot⟩ := h
  intro hlaw
  obtain ⟨hne, hdelims⟩ := delims_spec u
  have hpart : ':' ∉ u.path ++ u.delims := by
    intro hmem
    rcases List.mem_append.mp hmem with hmem | hmem
    · exact hcolon hmem
    · exact absurd (hdelims ':' hmem) (by decide)
  have hread (s : Str) : classify (u.put s).text .entityName = arn (u.put s).text := by
    have hpre : "arn:".toList.isPrefixOf (u.put s).text = true := by
      rw [List.isPrefixOf_iff_prefix, put_text hauth hslot s, hscheme]
      exact ⟨_, rfl⟩
    unfold classify
    dsimp only
    rw [if_pos hpre]
  have hempty : arn (u.put []).text = .error UNREAD := by
    have hsplit : (u.put []).text.splitOn ':' = ["arn".toList, u.path ++ u.delims] := by
      rw [put_text hauth hslot [], hscheme, List.append_nil,
        List.splitOn_append_cons_self_of_not_mem (by decide), List.splitOn_eq_singleton hpart]
    unfold arn
    rw [hsplit]
    rfl
  have hfields : ∃ p, arn (u.put ":sqs:eu-west-1:123456789012:orders".toList).text = .ok p := by
    have hsplit : (u.put ":sqs:eu-west-1:123456789012:orders".toList).text.splitOn ':' =
        ["arn".toList, u.path ++ u.delims, "sqs".toList, "eu-west-1".toList, "123456789012".toList,
          "orders".toList] := by
      rw [put_text hauth hslot, hscheme, List.splitOn_append_cons_self_of_not_mem (by decide)]
      have htail : ":sqs:eu-west-1:123456789012:orders".toList =
        ':' :: "sqs:eu-west-1:123456789012:orders".toList := by decide +kernel
      rw [htail, List.splitOn_append_cons_self_of_not_mem hpart]
      congr 2
    have hgood : "aws".toList.isPrefixOf (u.path ++ u.delims) = true :=
      List.isPrefixOf_iff_prefix.mpr (haws.trans (List.prefix_append _ _))
    have hrest : (("sqs".toList == "sns".toList || "sqs".toList == "sqs".toList) &&
        isRegion "eu-west-1".toList && isAccount "123456789012".toList && isName "orders".toList) = true := by
      decide +kernel
    unfold arn
    rw [hsplit]
    unfold arnParts
    dsimp only
    rw [Bool.and_assoc, Bool.and_assoc, Bool.and_assoc, hgood, Bool.true_and, ← Bool.and_assoc, ← Bool.and_assoc,
      if_pos hrest]
    exact ⟨_, rfl⟩
  obtain ⟨p, hp⟩ := hfields
  have hsame := put_read hauth hslot ":sqs:eu-west-1:123456789012:orders".toList hu hlaw (by decide +kernel)
  rw [hread, hread, hempty, hp] at hsame
  cases hsame

theorem infix_of_append {p w d : Str} (hp : p ≠ []) (hd : ∀ c ∈ d, c ∉ p) (h : p <:+: w ++ d) : p <:+: w := by
  induction d using List.reverseRecOn with
  | nil => rwa [List.append_nil] at h
  | append_singleton d c ih =>
      refine ih (fun x hx => hd x (List.mem_append_left _ hx)) ?_
      rw [← List.append_assoc, List.infix_concat_iff] at h
      rcases h with hsuffix | hinfix
      · exfalso
        refine hd c (List.mem_append_right d (List.mem_singleton_self c)) ?_
        obtain ⟨r, hr⟩ := hsuffix
        obtain ⟨x, y, rfl⟩ : ∃ x y, p = x ++ [y] := ⟨p.dropLast, p.getLast hp, (List.dropLast_append_getLast hp).symm⟩
        rw [← List.append_assoc] at hr
        have hlast : y = c := List.head_eq_of_cons_eq (List.append_inj' hr rfl).2
        rw [← hlast]
        exact List.mem_append_right x List.mem_cons_self
      · exact hinfix

/-- The reason why a host URI without an authority is not read. -/
theorem hostUri_error {u : Uri} (hu : u.WellFormed) (hauth : u.authority = none) :
    ∃ reason, reason ≠ UNREAD ∧ hostUri u.text = .error reason := by
  unfold hostUri
  rw [splitScheme_text hu]
  dsimp only
  split
  · refine ⟨MALFORMED, by decide, ?_⟩
    rw [authority_rest hu, Uri.read, hauth]
    rfl
  · exact ⟨SCHEME, by decide, rfl⟩

/-- A secret part decides between the two readings of a host name. -/
theorem inHostName_reads {u : Uri} {val : Val} (hu : u.WellFormed) (h : u.InHostName val) : ¬u.Law val := by
  obtain ⟨rfl, hauth, hno, hslot⟩ := h
  intro hlaw
  obtain ⟨hne, hdelims⟩ := delims_spec u
  have hplain : classify (u.put []).text .hostName = .error UNREAD := by
    have hnot : ¬"://".toList <:+: (u.put []).text := by
      intro hinfix
      rw [put_text hauth hslot [], List.append_nil, ← List.cons_append, ← List.append_assoc] at hinfix
      refine hno (infix_of_append (by decide) (fun c hc hmem => ?_) hinfix)
      exact (forall_chars (by decide) : ∀ c ∈ "://".toList, c ∉ ['?', '#']) c hmem (hdelims c hc)
    have hhost : isHost (u.put []).text = false := by
      obtain ⟨d, t, hd⟩ := List.exists_cons_of_ne_nil hne
      have hdelim : d ∈ ['?', '#'] := hdelims d (by rw [hd]; exact List.mem_cons_self)
      rw [← Bool.not_eq_true]
      intro htrue
      have hmem : d ∈ (u.put []).text := by
        rw [put_text hauth hslot [], hd]
        simp
      have hfalse : ∀ c ∈ ['?', '#'], hostChar c = false := forall_chars (by decide)
      have hchar : hostChar d = true := (allOf_spec htrue).2 d hmem
      rw [hfalse d hdelim] at hchar
      cases hchar
    unfold classify
    dsimp only
    rw [if_neg (by simpa using hnot), hhost]
    rfl
  have huri : classify (u.put "://".toList).text .hostName = hostUri (u.put "://".toList).text := by
    have hyes : "://".toList <:+: (u.put "://".toList).text := by
      rw [put_text hauth hslot]
      exact ⟨u.scheme ++ ':' :: (u.path ++ u.delims), [], by simp⟩
    unfold classify
    dsimp only
    rw [if_pos (decide_eq_true hyes)]
  have hbare : (u.put "://".toList).authority = none := by
    unfold Uri.put
    split <;> simp [Uri.bare, hauth]
  obtain ⟨reason, hreason, herror⟩ := hostUri_error (put_wellFormed _ hu (by decide +kernel)) hbare
  have hsame := put_read hauth hslot "://".toList hu hlaw (by decide)
  rw [huri, herror, hplain] at hsame
  exact hreason (Except.error.inj hsame)

/-- **The law, exactly**: whatever is stored matches the grammar of its kind, and the secret parts
of a URI have an influence only where the partition of an ARN goes on into them or where they
decide that a host name is a URI. -/
theorem secrets_iff (val : Val) :
    (∀ (text : Str) (p : Parsed), classify text val = .ok p →
      p.Sound val ∧ (∀ part ∈ p.parts, Clean part) ∧ ∀ host, p.host = some host → ':' ∉ host) ∧
    ∀ u : Uri, u.WellFormed → (u.Law val ↔ ¬u.InArn val ∧ ¬u.InHostName val) := by
  refine ⟨fun text p h => ⟨classify_sound h, (classify_sound h).clean⟩, fun u hu => ⟨fun hlaw => ?_, ?_⟩⟩
  · exact ⟨fun harn => inArn_reads hu harn hlaw, fun hhost => inHostName_reads hu hhost hlaw⟩
  · rintro ⟨harn, hhost⟩ u' hu' hsame
    have harn' : ¬u'.InArn val := by rwa [← inArn_bare, hsame, inArn_bare]
    have hhost' : ¬u'.InHostName val := by rwa [← inHostName_bare, hsame, inHostName_bare]
    rw [← classify_bare hu' harn' hhost', hsame, classify_bare hu harn hhost]

theorem rabbit_wellFormed : Uri.WellFormed ⟨"rabbitmq".toList, some ⟨some "guest:guest".toList, "broker:5672".toList⟩,
    "/prod/orders".toList, some "password=x".toList, none⟩ := by
  refine ⟨by decide +kernel, ?_, ?_, forall_chars (by decide +kernel), fun _ => .inr rfl, nofun, ?_⟩
  · rintro a ha s hs
    cases ha
    cases hs
    exact forall_chars (by decide +kernel)
  · rintro a ha
    cases ha
    exact forall_chars (by decide +kernel)
  · rintro q hq
    cases hq
    decide +kernel

/-- A broker address with user information and a query. -/
theorem secrets_iff_rabbit :
    Uri.Law .address ⟨"rabbitmq".toList, some ⟨some "guest:guest".toList, "broker:5672".toList⟩,
      "/prod/orders".toList, some "password=x".toList, none⟩ :=
  ((secrets_iff .address).2 _ rabbit_wellFormed).mpr ⟨(fun h => nomatch h.1), (fun h => nomatch h.1)⟩

/-- An ARN whose partition goes on into a query. -/
def arnWithQuery : Uri :=
  ⟨"arn".toList, none, "aws".toList, some "password=:sqs:eu-west-1:123456789012:hunter2".toList, none⟩

/-- **The end of a query is stored as a name**, and without the query nothing is read. -/
theorem arn_query_stored :
    arnWithQuery.WellFormed ∧
      arnWithQuery.text = "arn:aws?password=:sqs:eu-west-1:123456789012:hunter2".toList ∧
      classify arnWithQuery.text .entityName =
        .ok { value := some "hunter2".toList, scheme := some "arn".toList, region := some "eu-west-1".toList,
              account := some "123456789012".toList } ∧
      classify arnWithQuery.bare.text .entityName = .error UNREAD ∧ ¬arnWithQuery.Law .entityName := by
  have hsecret : arnWithQuery.WellFormed :=
    ⟨by decide +kernel, nofun, nofun, forall_chars (by decide +kernel), fun h => absurd rfl h, fun _ => by decide +kernel,
      fun q hq => by cases hq; decide +kernel⟩
  refine ⟨hsecret, ?_, ?_, ?_, fun hlaw => ?_⟩
  -- the literals are rewritten before the kernel runs the code, which would decode their bytes
  · delta arnWithQuery
    repeat rw [String.toList_ofList]
    decide +kernel
  · delta arnWithQuery
    repeat rw [String.toList_ofList]
    decide +kernel
  · delta arnWithQuery
    repeat rw [String.toList_ofList]
    decide +kernel
  · have hsame := hlaw arnWithQuery.bare (wellFormed_bare hsecret) rfl
    revert hsame
    delta arnWithQuery
    repeat rw [String.toList_ofList]
    decide +kernel

end Devscout.Transport
