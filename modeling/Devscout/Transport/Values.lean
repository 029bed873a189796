/-
# Devscout.Transport.Values -- reading one stated string as a value of a known kind

Every value is checked against the grammar of its kind before anything keeps it. An address
or a host URI is cut by first and last occurrences of its delimiters: the scheme, the query
and fragment, the path, the user information and the port. What is stored is what is left,
and it is never anything that a grammar does not allow.

That the secret parts of a URI have no influence is a law about two readings: two texts that
differ in their user information, query or fragment only are read alike. It holds of every
kind but in two places. An ARN only asks its partition to start with `aws`, so a query may
stand in it and go on with the other fields; and whether a host name is read as a URI is
decided by a `://` anywhere in it, the query included.
-/

import Devscout.Lib.Text

namespace Devscout.Transport

open Lib

/-! ## Values -/

/-- The kinds of values. -/
inductive Val where
  | name
  | entityName
  | address
  | hostName
  | virtualHost
  | region
  | hostUri
  | key
  | formatterArg
  | ignore
  deriving DecidableEq

/-- The parts a value states. -/
structure Parsed where
  value : Option Str := none
  scheme : Option Str := none
  host : Option Str := none
  virtualHost : Option Str := none
  region : Option Str := none
  account : Option Str := none
  deriving DecidableEq

def UNREAD : String := "unread-value"
def MALFORMED : String := "malformed-uri"
def SCHEME : String := "uri-scheme"

/-- `all`: not empty, and every character passes. -/
def allOf (text : Str) (ok : Char → Bool) : Bool := !text.isEmpty && text.all ok

def nameChar (c : Char) : Bool := c.isAlphanum || "._:/-".toList.contains c
def hostChar (c : Char) : Bool := c.isAlphanum || ".-".toList.contains c
def virtualHostChar (c : Char) : Bool := c.isAlphanum || "._/-".toList.contains c
def keyChar (c : Char) : Bool := c.isAlphanum || "_.:-".toList.contains c

def isName (text : Str) : Bool := allOf text nameChar
def isHost (text : Str) : Bool := allOf text hostChar
def isVirtualHost (text : Str) : Bool := allOf text virtualHostChar
def isKey (text : Str) : Bool := allOf text keyChar

/-- `is_region`: `[a-z]\x7b2\x7d(-[a-z]+)+-[0-9]+`. -/
def isRegion (text : Str) : Bool :=
  let parts := text.splitOn '-'
  decide (3 ≤ parts.length) && Text.utf8Len (parts.headD []) == 2 &&
    parts.dropLast.all (fun p => allOf p Char.isLower) && allOf (parts.getLastD []) Char.isDigit

def isAccount (text : Str) : Bool := Text.utf8Len text == 12 && allOf text Char.isDigit

example : isAccount (List.replicate 12 '0') = true ∧ isAccount ['0'] = false := by decide +kernel

/-! ## The cuts -/

/-- `split_once`. -/
def splitOnce (c : Char) (text : Str) : Option (Str × Str) :=
  if c ∈ text then some (text.takeWhile (· != c), (text.dropWhile (· != c)).drop 1) else none

def schemeChar (c : Char) : Bool := c.isAlphanum || "+.-".toList.contains c

/-- What `split_scheme` asks of a scheme. -/
def isScheme (scheme : Str) : Bool := scheme.head?.any Char.isAlpha && scheme.tail.all schemeChar

/-- `split_scheme`: the scheme, lowercased, and what follows its colon. -/
def splitScheme (text : Str) : Option (Str × Str) := do
  let (scheme, rest) ← splitOnce ':' text
  if isScheme scheme then some (scheme.map Char.toLower, rest) else none

/-- `strip_query`. -/
def stripQuery (text : Str) : Str := text.takeWhile fun c => c != '?' && c != '#'

/-- The host of an authority, with user information and port dropped. -/
def hostOf (auth : Str) : Str :=
  let host := ((Text.rsplit '@' auth).map Prod.snd).getD auth
  match Text.rsplit ':' host with
  | some (h, port) => if allOf port Char.isDigit then h else host
  | none => host

/-- The host and the non-empty path segments of an authority and what is behind it. -/
def hostAndSegments (auth path : Str) : Except String (Str × List Str) :=
  let host := hostOf auth
  if isHost host then .ok (host, (path.splitOn '/').filter fun s => !s.isEmpty)
  else .error (if host.isEmpty then MALFORMED else UNREAD)

/-- `authority`. -/
def authority (rest : Str) : Except String (Str × List Str) :=
  if "//".toList.isPrefixOf rest then
    let rest := stripQuery (rest.drop 2)
    let (auth, path) := (splitOnce '/' rest).getD (rest, [])
    hostAndSegments auth path
  else .error MALFORMED

/-! ## Classification -/

def valueOf (text : Str) : Parsed := { value := some text }

def classify.named (ok : Bool) (parsed : Parsed) : Except String Parsed := if ok then .ok parsed else .error UNREAD

/-- `broker_address`, from what `authority` reads. -/
def brokerAddress (scheme : Str) (read : Except String (Str × List Str)) : Except String Parsed := do
  let (host, segments) ← read
  match segments.getLast? with
  | none => .error MALFORMED
  | some name =>
      if !isName name then .error UNREAD
      else if scheme = "amazonsqs".toList then
        if isRegion host then .ok { value := some name, scheme := some scheme, region := some host }
        else .error UNREAD
      else
        match segments with
        | virtualHost :: _ :: _ =>
            if isVirtualHost virtualHost then
              .ok { value := some name, scheme := some scheme, host := some host, virtualHost := some virtualHost }
            else .error UNREAD
        | _ => .ok { value := some name, scheme := some scheme, host := some host }

/-- `address_uri`. -/
def addressUri (text : Str) : Except String Parsed :=
  match splitScheme text with
  | none => .error MALFORMED
  | some (scheme, rest) =>
      if scheme ∈ ["queue".toList, "exchange".toList, "topic".toList] then
        let name := stripQuery rest
        if "//".toList.isPrefixOf name || name.isEmpty then .error MALFORMED
        else if !isName name then .error UNREAD
        else .ok { value := some name, scheme := some scheme }
      else if scheme ∈ ["rabbitmq".toList, "rabbitmqs".toList, "amazonsqs".toList] then
        brokerAddress scheme (authority rest)
      else .error SCHEME

/-- The host of a host URI, from what `authority` reads. -/
def brokerHost (scheme : Str) (read : Except String (Str × List Str)) : Except String Parsed := do
  let (host, segments) ← read
  if scheme = "amazonsqs".toList then
    if isRegion host then .ok { scheme := some scheme, region := some host } else .error UNREAD
  else
    match segments.head? with
    | none => .ok { scheme := some scheme, host := some host }
    | some v =>
        if isVirtualHost v then .ok { scheme := some scheme, host := some host, virtualHost := some v }
        else .error UNREAD

/-- `host_uri`. -/
def hostUri (text : Str) : Except String Parsed :=
  match splitScheme text with
  | none => .error MALFORMED
  | some (scheme, rest) =>
      if scheme ∈ ["rabbitmq".toList, "rabbitmqs".toList, "amazonsqs".toList] then
        brokerHost scheme (authority rest)
      else .error SCHEME

/-- `arn`, from its parts: `arn:<partition>:<sns|sqs>:<region>:<account>:<name>`. -/
def arnParts : List Str → Except String Parsed
  | [_, partition_, service, region, account, name] =>
      if "aws".toList.isPrefixOf partition_ && (service == "sns".toList || service == "sqs".toList) &&
          isRegion region && isAccount account && isName name then
        .ok { value := some name, scheme := some "arn".toList, region := some region, account := some account }
      else .error UNREAD
  | _ => .error UNREAD

def arn (text : Str) : Except String Parsed := arnParts (text.splitOn ':')

/-- `classify`: reads a text as a value of a kind, or names why it cannot. -/
def classify (text : Str) (val : Val) : Except String Parsed :=
  match val with
  | .name | .formatterArg => classify.named (isName text) (valueOf text)
  | .key => classify.named (isKey text) (valueOf text)
  | .entityName => if "arn:".toList.isPrefixOf text then arn text else classify.named (isName text) (valueOf text)
  | .address => addressUri text
  | .hostName =>
      if decide ("://".toList <:+: text) then hostUri text
      else classify.named (isHost text) { host := some text }
  | .hostUri => hostUri text
  | .virtualHost => classify.named (isVirtualHost text) { virtualHost := some text }
  | .region => classify.named (isRegion text) { region := some text }
  | .ignore => .ok {}

/-! ## What is stored -/

/-- Every part that is stored matches the grammar of its kind. -/
structure Parsed.Sound (val : Val) (p : Parsed) : Prop where
  value : ∀ v, p.value = some v → if val = .key then isKey v = true else isName v = true
  scheme : ∀ s, p.scheme = some s → isScheme s = true
  host : ∀ h, p.host = some h → isHost h = true
  virtualHost : ∀ v, p.virtualHost = some v → isVirtualHost v = true
  region : ∀ r, p.region = some r → isRegion r = true
  account : ∀ a, p.account = some a → isAccount a = true

/-- The parts that are stored. -/
def Parsed.parts (p : Parsed) : List Str :=
  [p.value, p.scheme, p.host, p.virtualHost, p.region, p.account].filterMap id

/-- Not empty, and without a delimiter of a secret part. -/
def Clean (part : Str) : Prop :=
  part ≠ [] ∧ ∀ c ∈ part, c ∉ "@?#=".toList ∧ Text.isWhitespace c = false

/-! ## Characters -/

/-- A fact about letters and digits is one about the first 128 characters. -/
theorem forall_alphanum {P : Char → Prop}
    (h : ∀ n : Fin 128, (Char.ofNat n.val).isAlphanum = true → P (Char.ofNat n.val)) (c : Char)
    (hc : c.isAlphanum = true) : P c := by
  have hlt : c.toNat < 128 := by
    simp only [Char.isAlphanum, Char.isAlpha, Char.isUpper, Char.isLower, Char.isDigit, Bool.or_eq_true,
      Bool.and_eq_true, decide_eq_true_eq, UInt32.le_iff_toNat_le, ge_iff_le] at hc
    have hupper : 'Z'.val.toNat = 90 := rfl
    have hlower : 'z'.val.toNat = 122 := rfl
    have hdigit : '9'.val.toNat = 57 := rfl
    have hval : c.toNat = c.val.toNat := rfl
    omega
  have hfin := h ⟨c.toNat, hlt⟩
  rw [Char.ofNat_toNat] at hfin
  exact hfin hc

/-- The characters of all grammars. -/
def plainChar (c : Char) : Bool := c.isAlphanum || "._:/+-".toList.contains c

theorem plain_spec (c : Char) (h : plainChar c = true) :
    c ∉ "@?#=".toList ∧ Text.isWhitespace c = false := by
  rcases Bool.or_eq_true_iff.mp h with h | h
  · exact @forall_alphanum (fun c => c ∉ "@?#=".toList ∧ Text.isWhitespace c = false)
      (by decide +kernel) c h
  · have hall : ∀ c ∈ "._:/+-".toList, c ∉ "@?#=".toList ∧ Text.isWhitespace c = false :=
      forall_chars (by decide +kernel)
    exact hall c (List.contains_iff_mem.mp h)

/-- A class of letters, digits and some other characters. -/
theorem plain_of_class {others : List Char} (hothers : others ⊆ "._:/+-".toList) (c : Char)
    (h : (c.isAlphanum || others.contains c) = true) : plainChar c = true := by
  rcases Bool.or_eq_true_iff.mp h with h | h
  · rw [plainChar, h, Bool.true_or]
  · rw [plainChar, List.contains_iff_mem.mpr (hothers (List.contains_iff_mem.mp h)), Bool.or_true]

theorem plain_nameChar : ∀ c, nameChar c = true → plainChar c = true := plain_of_class (by decide)
theorem plain_hostChar : ∀ c, hostChar c = true → plainChar c = true := plain_of_class (by decide)
theorem plain_virtualHostChar : ∀ c, virtualHostChar c = true → plainChar c = true := plain_of_class (by decide)
theorem plain_keyChar : ∀ c, keyChar c = true → plainChar c = true := plain_of_class (by decide)
theorem plain_schemeChar : ∀ c, schemeChar c = true → plainChar c = true := plain_of_class (by decide)

theorem plain_alphanum (c : Char) (h : c.isAlphanum = true) : plainChar c = true := by
  rw [plainChar, h, Bool.true_or]

theorem alphanum_of_alpha (c : Char) (h : c.isAlpha = true) : c.isAlphanum = true := by
  rw [Char.isAlphanum, h, Bool.true_or]

theorem alphanum_of_lower (c : Char) (h : c.isLower = true) : c.isAlphanum = true := by
  rw [Char.isAlphanum, Char.isAlpha, h, Bool.or_true, Bool.true_or]

theorem alphanum_of_digit (c : Char) (h : c.isDigit = true) : c.isAlphanum = true := by
  rw [Char.isAlphanum, h, Bool.or_true]

/-! ## The grammars -/

section Grammars

variable {text : Str} {ok : Char → Bool}

theorem allOf_spec (h : allOf text ok = true) : text ≠ [] ∧ ∀ c ∈ text, ok c = true := by
  rw [allOf, Bool.and_eq_true, Bool.not_eq_true', List.isEmpty_eq_false_iff, List.all_eq_true] at h
  exact h

theorem clean_of_all (hok : ∀ c, ok c = true → plainChar c = true) (h : allOf text ok = true) : Clean text := by
  obtain ⟨hne, hall⟩ := allOf_spec h
  exact ⟨hne, fun c hc => plain_spec c (hok c (hall c hc))⟩

theorem mem_parts {c sep : Char} (hc : c ∈ text) (hsep : c ≠ sep) : ∃ p ∈ text.splitOn sep, c ∈ p := by
  by_contra hno
  push Not at hno
  have hjoin : ∀ parts : List Str, (∀ p ∈ parts, c ∉ p) → c ∉ List.intercalate [sep] parts := by
    intro parts hparts
    induction parts with
    | nil => exact List.not_mem_nil
    | cons p parts ih =>
        obtain ⟨hp, hrest⟩ := List.forall_mem_cons.mp hparts
        rcases parts with _ | ⟨q, parts⟩
        · simpa using hp
        · rw [List.intercalate_cons_of_ne_nil (by simp), List.mem_append, List.mem_append]
          rintro ((hmem | hmem) | hmem)
          · exact hp hmem
          · exact hsep (List.mem_singleton.mp hmem)
          · exact ih hrest hmem
  exact hjoin _ hno (by rwa [List.intercalate_splitOn])

/-- The characters of a region are letters, digits and dashes. -/
theorem region_chars (h : isRegion text = true) : ∀ c ∈ text, plainChar c = true := by
  unfold isRegion at h
  simp only [Bool.and_eq_true, List.all_eq_true] at h
  obtain ⟨⟨-, hinit⟩, hlast⟩ := h
  intro c hc
  by_cases hdash : c = '-'
  · subst hdash
    decide
  · obtain ⟨p, hp, hmem⟩ := mem_parts hc hdash
    rw [← List.dropLast_append_getLast (List.splitOn_ne_nil '-' text), List.mem_append, List.mem_singleton] at hp
    rcases hp with hp | rfl
    · exact plain_alphanum c (alphanum_of_lower c ((allOf_spec (hinit p hp)).2 c hmem))
    · rw [List.getLastD_eq_getLast?, List.getLast?_eq_some_getLast (List.splitOn_ne_nil '-' text),
        Option.getD_some] at hlast
      exact plain_alphanum c (alphanum_of_digit c ((allOf_spec hlast).2 c hmem))

theorem clean_region (h : isRegion text = true) : Clean text := by
  refine ⟨?_, fun c hc => plain_spec c (region_chars h c hc)⟩
  rintro rfl
  exact absurd h (by decide)

theorem clean_account (h : isAccount text = true) : Clean text := by
  rw [isAccount, Bool.and_eq_true] at h
  exact clean_of_all (fun c hc => plain_alphanum c (alphanum_of_digit c hc)) h.2

theorem clean_scheme (h : isScheme text = true) : Clean text := by
  unfold isScheme at h
  rcases text with _ | ⟨c, text⟩
  · cases h
  · rw [List.head?_cons, Option.any_some, List.tail_cons, Bool.and_eq_true, List.all_eq_true] at h
    refine ⟨List.cons_ne_nil c text, List.forall_mem_cons.mpr ⟨?_, fun d hd => ?_⟩⟩
    · exact plain_spec c (plain_alphanum c (alphanum_of_alpha c h.1))
    · exact plain_spec d (plain_schemeChar d (h.2 d hd))

end Grammars

/-! ## Whatever is stored matches its grammar -/

section Sound

variable {text : Str} {val : Val} {p : Parsed}

theorem named_ok {ok : Bool} {q : Parsed} (h : classify.named ok q = .ok p) : ok = true ∧ q = p := by
  unfold classify.named at h
  split at h
  · exact ⟨‹_›, Except.ok.inj h⟩
  · cases h

theorem sound_value (hval : val ≠ .key) (h : isName text = true) : Parsed.Sound val (valueOf text) where
  value v hv := by
    rw [if_neg hval, ← Option.some.inj hv]
    exact h
  scheme _ hs := nomatch hs
  host _ hs := nomatch hs
  virtualHost _ hs := nomatch hs
  region _ hs := nomatch hs
  account _ hs := nomatch hs

/-- The schemes that a broker address can have. -/
theorem isScheme_of_known {scheme : Str}
    (h : scheme ∈ ["queue".toList, "exchange".toList, "topic".toList] ∨
      scheme ∈ ["rabbitmq".toList, "rabbitmqs".toList, "amazonsqs".toList]) : isScheme scheme = true := by
  have hall : ∀ scheme ∈ ["queue".toList, "exchange".toList, "topic".toList] ++
      ["rabbitmq".toList, "rabbitmqs".toList, "amazonsqs".toList], isScheme scheme = true := by
    decide +kernel
  exact hall scheme (List.mem_append.mpr h)

theorem authority_host {rest host : Str} {segments : List Str} (h : authority rest = .ok (host, segments)) :
    isHost host = true := by
  unfold authority at h
  split at h
  · unfold hostAndSegments at h
    dsimp only at h
    split at h
    · rename_i hhost
      cases h
      exact hhost
    · cases h
  · cases h

theorem brokerAddress_sound {scheme : Str} {read : Except String (Str × List Str)} (hval : val ≠ .key)
    (hscheme : isScheme scheme = true)
    (hread : ∀ host segments, read = .ok (host, segments) → isHost host = true)
    (h : brokerAddress scheme read = .ok p) : p.Sound val := by
  unfold brokerAddress at h
  rcases read with e | ⟨host, segments⟩
  · cases h
  have hhost := hread host segments rfl
  replace h : (match segments.getLast? with
    | none => Except.error MALFORMED
    | some name => _) = Except.ok p := h
  split at h
  · cases h
  rename_i name hlast
  split at h
  · cases h
  rename_i hname
  rw [Bool.not_eq_true', Bool.not_eq_false] at hname
  have hvalue : ∀ v, some name = some v → if val = .key then isKey v = true else isName v = true := by
    intro v hv
    rw [if_neg hval, ← Option.some.inj hv]
    exact hname
  have hsch : ∀ s, some scheme = some s → isScheme s = true := by
    intro s hs
    rw [← Option.some.inj hs]
    exact hscheme
  have hho : ∀ x, some host = some x → isHost x = true := by
    intro x hx
    rw [← Option.some.inj hx]
    exact hhost
  split at h
  · split at h
    · rename_i hregion
      cases h
      exact ⟨hvalue, hsch, nofun, nofun, fun r hr => Option.some.inj hr ▸ hregion, nofun⟩
    · cases h
  · split at h
    · split at h
      · rename_i hvirtual
        cases h
        exact ⟨hvalue, hsch, hho, fun v hv => Option.some.inj hv ▸ hvirtual, nofun, nofun⟩
      · cases h
    · cases h
      exact ⟨hvalue, hsch, hho, nofun, nofun, nofun⟩

theorem addressUri_sound (hval : val ≠ .key) (h : addressUri text = .ok p) : p.Sound val := by
  unfold addressUri at h
  split at h
  · cases h
  rename_i scheme rest hsplit
  split at h
  · rename_i hknown
    dsimp only at h
    split at h
    · cases h
    split at h
    · cases h
    rename_i hname
    rw [Bool.not_eq_true', Bool.not_eq_false] at hname
    cases h
    refine ⟨fun v hv => ?_, fun s hs => ?_, nofun, nofun, nofun, nofun⟩
    · rw [if_neg hval, ← Option.some.inj hv]
      exact hname
    · rw [← Option.some.inj hs]
      exact isScheme_of_known (.inl hknown)
  · split at h
    · rename_i hknown
      exact brokerAddress_sound hval (isScheme_of_known (.inr hknown))
        (fun _ _ hread => authority_host hread) h
    · cases h

theorem brokerHost_sound {scheme : Str} {read : Except String (Str × List Str)}
    (hscheme : isScheme scheme = true)
    (hread : ∀ host segments, read = .ok (host, segments) → isHost host = true)
    (h : brokerHost scheme read = .ok p) : p.Sound val := by
  unfold brokerHost at h
  rcases read with e | ⟨host, segments⟩
  · cases h
  have hhost := hread host segments rfl
  have hsch : ∀ s, some scheme = some s → isScheme s = true := by
    intro s hs
    rw [← Option.some.inj hs]
    exact hscheme
  have hho : ∀ x, some host = some x → isHost x = true := by
    intro x hx
    rw [← Option.some.inj hx]
    exact hhost
  replace h : (if scheme = "amazonsqs".toList then _ else _) = Except.ok p := h
  split at h
  · split at h
    · rename_i hregion
      cases h
      exact ⟨nofun, hsch, nofun, nofun, fun r hr => Option.some.inj hr ▸ hregion, nofun⟩
    · cases h
  · split at h
    · cases h
      exact ⟨nofun, hsch, hho, nofun, nofun, nofun⟩
    · split at h
      · rename_i hvirtual
        cases h
        exact ⟨nofun, hsch, hho, fun v hv => Option.some.inj hv ▸ hvirtual, nofun, nofun⟩
      · cases h

theorem hostUri_sound (h : hostUri text = .ok p) : p.Sound val := by
  unfold hostUri at h
  split at h
  · cases h
  split at h
  · rename_i hknown
    exact brokerHost_sound (isScheme_of_known (.inr hknown)) (fun _ _ hread => authority_host hread) h
  · cases h

theorem arn_sound (hval : val ≠ .key) (h : arn text = .ok p) : p.Sound val := by
  unfold arn arnParts at h
  split at h
  · split at h
    · rename_i hgood
      simp only [Bool.and_eq_true] at hgood
      obtain ⟨⟨⟨-, hregion⟩, haccount⟩, hname⟩ := hgood
      cases h
      refine ⟨fun v hv => ?_, fun s hs => ?_, nofun, nofun, fun r hr => Option.some.inj hr ▸ hregion,
        fun a ha => Option.some.inj ha ▸ haccount⟩
      · rw [if_neg hval, ← Option.some.inj hv]
        exact hname
      · rw [← Option.some.inj hs]
        decide +kernel
    · cases h
  · cases h

/-- **Whatever is stored matches the grammar of its kind.** -/
theorem classify_sound (h : classify text val = .ok p) : p.Sound val := by
  cases val with
  | name | formatterArg =>
      obtain ⟨hname, rfl⟩ := named_ok h
      exact sound_value (by decide) hname
  | key =>
      obtain ⟨hkey, rfl⟩ := named_ok h
      exact ⟨fun v hv => Option.some.inj hv ▸ hkey, nofun, nofun, nofun, nofun, nofun⟩
  | entityName =>
      unfold classify at h
      dsimp only at h
      split at h
      · exact arn_sound (by decide) h
      · obtain ⟨hname, rfl⟩ := named_ok h
        exact sound_value (by decide) hname
  | address => exact addressUri_sound (by decide) h
  | hostName =>
      unfold classify at h
      dsimp only at h
      split at h
      · exact hostUri_sound h
      · obtain ⟨hhost, rfl⟩ := named_ok h
        exact ⟨nofun, nofun, fun x hx => Option.some.inj hx ▸ hhost, nofun, nofun, nofun⟩
  | hostUri => exact hostUri_sound h
  | virtualHost =>
      obtain ⟨hvirtual, rfl⟩ := named_ok h
      exact ⟨nofun, nofun, nofun, fun v hv => Option.some.inj hv ▸ hvirtual, nofun, nofun⟩
  | region =>
      obtain ⟨hregion, rfl⟩ := named_ok h
      exact ⟨nofun, nofun, nofun, nofun, fun r hr => Option.some.inj hr ▸ hregion, nofun⟩
  | ignore =>
      cases h
      exact ⟨nofun, nofun, nofun, nofun, nofun, nofun⟩

/-- Nothing of a secret part, and no port, stands in what is stored. -/
theorem Parsed.Sound.clean (h : p.Sound val) :
    (∀ part ∈ p.parts, Clean part) ∧ ∀ host, p.host = some host → ':' ∉ host := by
  refine ⟨fun part hpart => ?_, fun host hhost hcolon => ?_⟩
  · obtain ⟨o, ho, hsome⟩ := List.mem_filterMap.mp hpart
    have hsome : o = some part := hsome
    subst hsome
    simp only [List.mem_cons, List.not_mem_nil, or_false] at ho
    rcases ho with ho | ho | ho | ho | ho | ho
    · have hv := h.value part ho.symm
      split at hv
      · exact clean_of_all plain_keyChar hv
      · exact clean_of_all plain_nameChar hv
    · exact clean_scheme (h.scheme part ho.symm)
    · exact clean_of_all plain_hostChar (h.host part ho.symm)
    · exact clean_of_all plain_virtualHostChar (h.virtualHost part ho.symm)
    · exact clean_region (h.region part ho.symm)
    · exact clean_account (h.account part ho.symm)
  · exact absurd ((allOf_spec (h.host host hhost)).2 ':' hcolon) (by decide)

end Sound

end Devscout.Transport
