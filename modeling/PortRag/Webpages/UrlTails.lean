import PortRag.Foundation.Except
import PortRag.Webpages.Urls

set_option autoImplicit false

/-!
# What a normalized URL keeps

`normalize_url` takes a URL apart and puts it together again.  Whatever it does to the scheme
and the authority, the path and the query of the result are those of the input, character for
character.
-/

namespace PortRag.Webpages

open PortRag.Foundation

/-- What `normalize_url` relies on in its libraries: lower case and NFC bring in no percent sign,
and the compressed form of an address without a zone consists of hexadecimal digits, dots and
colons. -/
structure UrlLibraries.Lawful (lib : UrlLibraries) : Prop where
  lower_percent : ∀ value, '%' ∉ value → '%' ∉ lib.lower value
  nfc_percent : ∀ value, '%' ∉ value → '%' ∉ lib.nfc value
  compressed : ∀ value address, lib.ipAddress value = some address → '%' ∉ value →
    address.compressed ≠ [] ∧
      ∀ c ∈ address.compressed, c.isDigit || ('a' ≤ c && c ≤ 'f') || c = '.' || c = ':'

/-! ## Accepted URLs -/

/-- What a URL went through that `normalize_url` accepted. -/
structure Accepted (lib : UrlLibraries) (bare : Bool) (url : List Char) (parsed : SplitResult)
    (hostname : List Char) (port : Option Nat) (result : String) : Prop where
  split : urlsplit lib.toTextTables url = some parsed
  scheme : parsed.scheme = "http".toList ∨ parsed.scheme = "https".toList
  host : ∃ host, parsed.hostname lib.toTextTables = some host ∧
    canonicalHost lib bare (stripDots (lib.nfc (lib.lower host))) = .ok hostname
  percent : '%' ∉ parsed.netloc
  ports : port = none ∨ port = some 80 ∨ port = some 443
  result : result = String.ofList (urlunsplit ⟨parsed.scheme,
    authorityText parsed.scheme hostname port, if parsed.path = [] then ['/'] else parsed.path,
    parsed.query, []⟩)

section Accepted

variable {lib : UrlLibraries} {bare : Bool} {url : List Char} {result : String}

/-- A result that passed a test is the value tested. -/
theorem ok_of_size_test {test : Prop} [Decidable test] {e : Exc} {value : String}
    (h : (if test then .error e else pure value) = Except.ok (ε := Exc) result) :
    value = result := by
  split at h
  · cases h
  · exact pure_eq_ok.mp h

/-- What a URL that is accepted has passed: it splits, its scheme and its port are allowed, no
percent sign is in its authority, and its host has a canonical form; the result is put together from
these. -/
theorem normalizeParsed_ok (h : normalizeParsed lib bare url = .ok result) :
    ∃ parsed hostname port, Accepted lib bare url parsed hostname port result := by
  unfold normalizeParsed at h
  split at h
  · cases h
  next parsed hsplit =>
  split at h
  · cases h
  next host hhost =>
  split at h
  · cases h
  next hscheme =>
  split at h
  · cases h
  next huser =>
  dsimp only at h
  split at h
  · cases h
  split at h
  · cases h
  next port _ =>
  split at h
  · cases h
  next hport =>
  obtain ⟨hostname, hhostname, h⟩ := bind_eq_ok.mp h
  have hresult := ok_of_size_test h
  have hpercent : '%' ∉ parsed.netloc := by
    intro hmem
    apply huser
    rw [List.contains_iff_mem.mpr hmem, Bool.or_true]
  refine ⟨parsed, hostname, port, hsplit, ?_, ⟨host, hhost, hhostname⟩, hpercent, ?_,
    hresult.symm⟩
  · by_contra hneither
    exact hscheme (not_or.mp hneither)
  · by_contra hneither
    rw [not_or, not_or] at hneither
    exact hport hneither

/-- The text that `normalize_url` parses. -/
def parsedText (url : List Char) : List Char :=
  if matchesScheme url then url else "https://".toList ++ url

/-- What `normalize_url` does before it parses: blanks at both ends are taken off, none may be left
inside, and a URL without a scheme gets one. -/
theorem normalizeUrl_ok {text : String} (h : normalizeUrl lib text = .ok result) :
    (∀ c ∈ stripBlanks text.toList, 32 < c.toNat) ∧
      normalizeParsed lib (!matchesScheme (stripBlanks text.toList))
        (parsedText (stripBlanks text.toList)) = .ok result := by
  unfold normalizeUrl at h
  dsimp only at h
  split at h
  · cases h
  next hclean =>
  split at h
  · cases h
  constructor
  · intro c hc
    by_contra hsmall
    apply hclean
    have hcontrol : (stripBlanks text.toList).any isControl = true := by
      refine List.any_eq_true.mpr ⟨c, hc, ?_⟩
      unfold isControl
      rw [decide_eq_true (Nat.not_lt.mp hsmall), Bool.true_or]
    rw [hcontrol, Bool.or_true]
  · have htext : parsedText (stripBlanks text.toList) =
        if (!matchesScheme (stripBlanks text.toList)) = true then
          "https://".toList ++ stripBlanks text.toList else stripBlanks text.toList := by
      unfold parsedText
      cases matchesScheme (stripBlanks text.toList) with
      | true => rfl
      | false => rfl
    rw [htext]
    split at h
    · next normalized hnormalized =>
        cases h
        exact hnormalized
    · cases h
    · cases h

end Accepted

/-! ## Authorities -/

/-- A character of a canonical host. -/
def hostMark (c : Char) : Bool := isHostChar c || c = '.' || c = '-' || c = ':'

/-- The host of the result is a text of host characters, none of which ends an authority, a path or
a query. -/
theorem canonicalHost_ok {lib : UrlLibraries} (hlib : lib.Lawful) {bare : Bool}
    {host hostname : List Char} (hpercent : '%' ∉ host)
    (h : canonicalHost lib bare host = .ok hostname) :
    hostname ≠ [] ∧ ∀ c ∈ hostname, hostMark c = true := by
  unfold canonicalHost at h
  split at h
  · split at h
    · cases h
    · next raw hraw =>
        dsimp only at h
        split at h
        · cases h
        · next hname =>
            cases h
            rw [Bool.or_eq_true, not_or, Bool.not_eq_true, Bool.not_eq_false'] at hname
            have hvalid := hname.1
            unfold isHostName at hvalid
            rw [Bool.and_eq_true, Bool.and_eq_true] at hvalid
            obtain ⟨⟨hall, hhead⟩, -⟩ := hvalid
            refine ⟨?_, ?_⟩
            · intro hempty
              rw [hempty] at hhead
              cases hhead
            · intro c hc
              have hchar := List.all_eq_true.mp hall c hc
              unfold hostMark
              rw [hchar, Bool.true_or]
  · next address haddress =>
      split at h
      · cases h
        obtain ⟨hne, hall⟩ := hlib.compressed host address haddress hpercent
        refine ⟨hne, ?_⟩
        intro c hc
        have hchar := hall c hc
        simp only [Bool.or_eq_true, Bool.and_eq_true, decide_eq_true_eq] at hchar
        simp only [hostMark, isHostChar, Bool.or_eq_true, Bool.and_eq_true, decide_eq_true_eq]
        rcases hchar with ((hdigit | hletter) | hdot) | hcolon
        · exact .inl (.inl (.inl (.inr hdigit)))
        · exact .inl (.inl (.inl (.inl ⟨hletter.1, Char.le_trans hletter.2 (by decide : 'f' ≤ 'z')⟩)))
        · exact .inl (.inl (.inr hdot))
        · exact .inr hcolon
      · cases h

/-- A host whose location has no percent sign has none either. -/
theorem percent_not_mem_hostname {lib : UrlLibraries} (hlib : lib.Lawful) {parsed : SplitResult}
    {host : List Char} (hpercent : '%' ∉ parsed.netloc)
    (h : parsed.hostname lib.toTextTables = some host) : '%' ∉ host := by
  have hinfo : '%' ∉ (hostInfo parsed.netloc).1 :=
    fun hmem => hpercent (hostInfo_subset parsed.netloc hmem)
  unfold SplitResult.hostname at h
  split at h
  · cases h
  · rw [partition_of_not_mem hinfo] at h
    cases h
    exact hlib.lower_percent _ hinfo

theorem stripDots_subset (value : List Char) : stripDots value ⊆ value := by
  intro c hc
  exact List.mem_reverse.mp ((List.dropWhile_sublist _).subset (List.mem_reverse.mp hc))

/-- A character of a canonical authority. -/
def authorityMark (c : Char) : Bool := hostMark c || c = '[' || c = ']'

theorem isUrlDelimiter_of_authorityMark {c : Char} (h : authorityMark c = true) :
    isUrlDelimiter c = false := by
  by_contra hdelimiter
  rw [Bool.not_eq_false] at hdelimiter
  unfold isUrlDelimiter at hdelimiter
  simp only [Bool.or_eq_true, decide_eq_true_eq] at hdelimiter
  rcases hdelimiter with (rfl | rfl) | rfl
  · exact absurd h (by decide)
  · exact absurd h (by decide)
  · exact absurd h (by decide)

/-- The authority of the result is not empty and consists of host characters and brackets. -/
theorem authorityText_spec {scheme hostname : List Char} {port : Option Nat}
    (hne : hostname ≠ []) (hmarks : ∀ c ∈ hostname, hostMark c = true)
    (hport : port = none ∨ port = some 80 ∨ port = some 443) :
    authorityText scheme hostname port ≠ [] ∧
      ∀ c ∈ authorityText scheme hostname port, authorityMark c = true := by
  have hhost : ∀ c ∈ hostname, authorityMark c = true := by
    intro c hc
    unfold authorityMark
    rw [hmarks c hc]
    rfl
  have hbracketed : ∀ c ∈ '[' :: hostname ++ [']'], authorityMark c = true := by
    intro c hc
    rcases List.mem_append.mp hc with hc | hc
    · rcases List.mem_cons.mp hc with rfl | hc
      · rfl
      · exact hhost c hc
    · rw [List.mem_singleton.mp hc]
      rfl
  have hauthority : ∀ authority : List Char,
      authority = (if hostname.contains ':' then '[' :: hostname ++ [']'] else hostname) →
      authority ≠ [] ∧ ∀ c ∈ authority, authorityMark c = true := by
    rintro authority rfl
    split
    · exact ⟨List.append_ne_nil_of_right_ne_nil _ (List.cons_ne_nil _ _), hbracketed⟩
    · exact ⟨hne, hhost⟩
  have hdigits : ∀ number, port = some number → ∀ c ∈ (toString number).toList,
      authorityMark c = true := by
    rintro number rfl
    rcases hport with hport | hport | hport
    · cases hport
    · cases hport
      exact List.all_eq_true.mp (by decide)
    · cases hport
      exact List.all_eq_true.mp (by decide)
  unfold authorityText
  dsimp only
  obtain ⟨hne', hall⟩ := hauthority _ rfl
  cases port with
  | none => exact ⟨hne', hall⟩
  | some number =>
      dsimp only
      by_cases hdefault : number = (if scheme = "https".toList then 443 else 80)
      · rw [if_pos hdefault]
        exact ⟨hne', hall⟩
      · rw [if_neg hdefault]
        refine ⟨List.append_ne_nil_of_left_ne_nil hne' _, ?_⟩
        intro c hc
        rcases List.mem_append.mp hc with hc | hc
        · exact hall c hc
        · rcases List.mem_cons.mp hc with rfl | hc
          · rfl
          · exact hdigits number rfl c hc

/-! ## Paths and queries -/

/-- A URL from its authority on. -/
def afterScheme (url : List Char) : List Char :=
  if matchesScheme url then (partition ':' url).2.2.drop 2 else url

/-- The text of a URL from the end of its authority up to a fragment. -/
def pathAndQuery (url : List Char) : List Char :=
  ((afterScheme url).dropWhile (!isUrlDelimiter ·)).takeWhile (· ≠ '#')

/-- A path and a query with the two changes that normalization makes: an empty path becomes a
slash, and an empty query loses its question mark. -/
def canonicalTail (tail : List Char) : List Char :=
  let (path, _, query) := partition '?' tail
  (if path = [] then ['/'] else path) ++ (if query = [] then [] else '?' :: query)

/-- The text before a query is empty or an absolute path. -/
theorem path_cases (more : List Char) :
    let path := (partition '?' ((more.dropWhile (!isUrlDelimiter ·)).takeWhile (· ≠ '#'))).1
    path = [] ∨ path.head? = some '/' := by
  dsimp only
  rw [partition_fst]
  cases hrest : more.dropWhile (!isUrlDelimiter ·) with
  | nil => exact .inl rfl
  | cons c rest =>
      have hdelimiter : isUrlDelimiter c = true := by
        have hhead := List.head?_dropWhile_not (!isUrlDelimiter ·) more
        rw [hrest] at hhead
        simpa using hhead
      unfold isUrlDelimiter at hdelimiter
      simp only [Bool.or_eq_true, decide_eq_true_eq] at hdelimiter
      rcases hdelimiter with (rfl | rfl) | rfl
      · exact .inr rfl
      · exact .inl rfl
      · exact .inl rfl

/-- `urlunsplit` of the components that `normalize_url` gives it. -/
theorem urlunsplit_eq {scheme authority tail : List Char} (hscheme : scheme ≠ [])
    (hauthority : authority ≠ [])
    (hpath : (partition '?' tail).1 = [] ∨ (partition '?' tail).1.head? = some '/') :
    urlunsplit ⟨scheme, authority,
        if (partition '?' tail).1 = [] then ['/'] else (partition '?' tail).1,
        (partition '?' tail).2.2, []⟩ =
      scheme ++ "://".toList ++ authority ++ canonicalTail tail := by
  have habsolute : ∀ path : List Char, path = [] ∨ path.head? = some '/' →
      ¬((if path = [] then ['/'] else path) ≠ [] ∧
        (if path = [] then ['/'] else path).head? ≠ some '/') := by
    rintro path (rfl | hhead) ⟨-, hother⟩
    · exact hother rfl
    · split at hother
      · exact hother rfl
      · exact hother hhead
  unfold urlunsplit canonicalTail
  dsimp only
  rw [if_neg (not_not.mpr (rfl : ([] : List Char) = [])), if_neg (habsolute _ hpath),
    if_pos hscheme, if_pos (Or.inl hauthority)]
  by_cases hquery : (partition '?' tail).2.2 = []
  · rw [if_neg (not_not.mpr hquery), if_pos hquery]
    simp
  · rw [if_pos hquery, if_neg hquery]
    simp

/-- The parsed text has an authority, and what follows the scheme is that of the URL itself. -/
theorem parsedText_split {url : List Char} (hscheme : (splitScheme (parsedText url)).1 ≠ [])
    (hnetloc : (splitAuthority (splitScheme (parsedText url)).2).1 ≠ []) :
    splitAuthority (splitScheme (parsedText url)).2 = splitNetloc (afterScheme url) := by
  obtain ⟨first, more, rest, htext, hcolon, hsplit⟩ := splitScheme_some hscheme
  rw [hsplit] at hnetloc ⊢
  dsimp only at hnetloc ⊢
  have hslashes : ∃ after, rest = '/' :: '/' :: after := by
    unfold splitAuthority at hnetloc
    split at hnetloc
    · next after => exact ⟨after, rfl⟩
    · exact (hnetloc rfl).elim
  obtain ⟨after, rfl⟩ := hslashes
  have hcut := partition_append hcolon ('/' :: '/' :: after)
  rw [← htext] at hcut
  have hafter : afterScheme url = after := by
    unfold afterScheme
    unfold parsedText at hcut
    split
    · next hmatches =>
        rw [if_pos hmatches] at hcut
        rw [hcut]
        rfl
    · next hmatches =>
        have hbare : partition ':' ("https".toList ++ ':' :: '/' :: '/' :: url) =
            ("https".toList, true, '/' :: '/' :: url) := partition_append (by decide) _
        rw [if_neg hmatches] at hcut
        have hboth := hcut.symm.trans hbare
        cases hboth
        rfl
  rw [hafter]
  rfl

/-- The result ends in a text that starts with a slash and has no fragment. -/
theorem canonicalTail_spec {tail : List Char} (hfragment : '#' ∉ tail)
    (hpath : (partition '?' tail).1 = [] ∨ (partition '?' tail).1.head? = some '/') :
    (canonicalTail tail).head? = some '/' ∧ '#' ∉ canonicalTail tail := by
  have hparts := subset_of_partition '?' tail
  unfold canonicalTail
  dsimp only
  constructor
  · rcases hpath with hempty | hhead
    · rw [if_pos hempty]
      rfl
    · have hne : (partition '?' tail).1 ≠ [] := by
        intro hempty
        rw [hempty] at hhead
        cases hhead
      rw [if_neg hne, List.head?_append, hhead]
      rfl
  · intro hmem
    rcases List.mem_append.mp hmem with hmem | hmem
    · split at hmem
      · exact absurd hmem (by decide)
      · exact hfragment (hparts.1 hmem)
    · split at hmem
      · exact absurd hmem List.not_mem_nil
      · rcases List.mem_cons.mp hmem with hmark | hmem
        · exact absurd hmark (by decide)
        · exact hfragment (hparts.2 hmem)

/-- The path and the query of a URL that is put together from its parts are those that were put in.
-/
theorem pathAndQuery_append {scheme authority tail : List Char}
    (hscheme : scheme = "http".toList ∨ scheme = "https".toList)
    (hauthority : ∀ c ∈ authority, isUrlDelimiter c = false) (hhead : tail.head? = some '/')
    (hfragment : '#' ∉ tail) :
    pathAndQuery (scheme ++ "://".toList ++ authority ++ tail) = tail := by
  have hafter : afterScheme (scheme ++ "://".toList ++ authority ++ tail) = authority ++ tail := by
    have htext : scheme ++ "://".toList ++ authority ++ tail =
        scheme ++ ':' :: '/' :: '/' :: (authority ++ tail) := by
      rw [List.append_assoc, List.append_assoc]
      rfl
    have hcolon : ':' ∉ scheme := by
      rcases hscheme with rfl | rfl
      · decide
      · decide
    have hmatches : matchesScheme (scheme ++ ':' :: '/' :: '/' :: (authority ++ tail)) = true := by
      unfold matchesScheme
      rw [partition_append hcolon]
      rcases hscheme with rfl | rfl
      · rfl
      · rfl
    unfold afterScheme
    rw [htext, if_pos hmatches, partition_append hcolon]
    rfl
  have hdrop : (authority ++ tail).dropWhile (!isUrlDelimiter ·) = tail := by
    have hpass : ∀ c ∈ authority, (!isUrlDelimiter c) = true := by
      intro c hc
      rw [hauthority c hc]
      rfl
    rw [List.dropWhile_append_of_pos hpass]
    cases tail with
    | nil => rfl
    | cons c rest =>
        cases hhead
        exact List.dropWhile_cons_of_neg (by decide)
  unfold pathAndQuery
  rw [hafter, hdrop, List.takeWhile_eq_self_iff]
  exact fun c hc => decide_eq_true (fun hmark => hfragment (hmark ▸ hc))

theorem afterScheme_subset (url : List Char) : afterScheme url ⊆ url := by
  intro c hc
  unfold afterScheme at hc
  split at hc
  · exact (subset_of_partition ':' url).2 ((List.drop_subset 2 _) hc)
  · exact hc

theorem pathAndQuery_subset (url : List Char) : pathAndQuery url ⊆ url := by
  intro c hc
  have hrest := (List.dropWhile_sublist _).subset ((List.takeWhile_sublist _).subset hc)
  exact afterScheme_subset url hrest

/-- Normalization adds no other characters than a slash and a question mark. -/
theorem mem_canonicalTail {tail : List Char} {c : Char} (hc : c ∈ canonicalTail tail) :
    c = '/' ∨ c = '?' ∨ c ∈ tail := by
  have hparts := subset_of_partition '?' tail
  unfold canonicalTail at hc
  dsimp only at hc
  rcases List.mem_append.mp hc with hc | hc
  · split at hc
    · exact .inl (List.mem_singleton.mp hc)
    · exact .inr (.inr (hparts.1 hc))
  · split at hc
    · exact absurd hc List.not_mem_nil
    · rcases List.mem_cons.mp hc with rfl | hc
      · exact .inr (.inl rfl)
      · exact .inr (.inr (hparts.2 hc))

/-! ## Normal forms -/

/-- What a normalized URL is made of. -/
structure NormalForm (url scheme hostname : List Char) (port : Option Nat) (tail : List Char) :
    Prop where
  text : url = scheme ++ "://".toList ++ authorityText scheme hostname port ++ tail
  schemes : scheme = "http".toList ∨ scheme = "https".toList
  nonempty : hostname ≠ []
  marks : ∀ c ∈ hostname, hostMark c = true
  ports : port = none ∨ port = some 80 ∨ port = some 443
  absolute : tail.head? = some '/'
  fragment : '#' ∉ tail
  clean : ∀ c ∈ tail, 32 < c.toNat

/-- `normalize_url` returns a normal form that ends in the path and the query of the URL. -/
theorem exists_normalForm {lib : UrlLibraries} (hlib : lib.Lawful) {text result : String}
    (h : normalizeUrl lib text = .ok result) :
    ∃ scheme hostname port, NormalForm result.toList scheme hostname port
      (canonicalTail (pathAndQuery (stripBlanks text.toList))) := by
  obtain ⟨hclean, hparsed⟩ := normalizeUrl_ok h
  generalize stripBlanks text.toList = url at *
  obtain ⟨parsed, hostname, port, haccepted⟩ := normalizeParsed_ok hparsed
  obtain ⟨host, hhost, hcanonical⟩ := haccepted.host
  have hpercent : '%' ∉ stripDots (lib.nfc (lib.lower host)) := by
    have hhostname := percent_not_mem_hostname hlib haccepted.percent hhost
    exact fun hmem => hlib.nfc_percent _ (hlib.lower_percent _ hhostname)
      (stripDots_subset _ hmem)
  obtain ⟨hne, hmarks⟩ := canonicalHost_ok hlib hpercent hcanonical
  have hauthority := (@authorityText_spec parsed.scheme _ _ hne hmarks haccepted.ports).1
  -- The components are cut from the text after the scheme.
  have hclear : ∀ c ∈ "https://".toList, decide (32 < c.toNat) = true :=
    List.all_eq_true.mp (by decide)
  have hclean' : ∀ c ∈ parsedText url, 32 < c.toNat := by
    unfold parsedText
    split
    · exact hclean
    · intro c hc
      rcases List.mem_append.mp hc with hc | hc
      · exact of_decide_eq_true (hclear c hc)
      · exact hclean c hc
  obtain ⟨hscheme, hnetloc, hpath, hquery⟩ := urlsplit_some hclean' haccepted.split
  have hsome : parsed.scheme ≠ [] := by
    rcases haccepted.scheme with hscheme | hscheme
    · rw [hscheme]
      decide
    · rw [hscheme]
      decide
  have hlocated : (splitAuthority (splitScheme (parsedText url)).2).1 ≠ [] := by
    rw [← hnetloc]
    intro hempty
    unfold SplitResult.hostname at hhost
    rw [hempty] at hhost
    cases hhost
  rw [parsedText_split (hscheme ▸ hsome) hlocated, partition_fst '#'] at hpath hquery
  change parsed.path = (partition '?' (pathAndQuery url)).1 at hpath
  change parsed.query = (partition '?' (pathAndQuery url)).2.2 at hquery
  have hcases : (partition '?' (pathAndQuery url)).1 = [] ∨
      (partition '?' (pathAndQuery url)).1.head? = some '/' := path_cases (afterScheme url)
  have hfragment : '#' ∉ pathAndQuery url := by
    intro hmem
    have himp := List.mem_takeWhile_imp hmem
    simp at himp
  obtain ⟨hhead, hnone⟩ := canonicalTail_spec hfragment hcases
  refine ⟨parsed.scheme, hostname, port, ?_, haccepted.scheme, hne, hmarks, haccepted.ports,
    hhead, hnone, ?_⟩
  · rw [haccepted.result, String.toList_ofList, hpath, hquery,
      urlunsplit_eq hsome hauthority hcases]
  · intro c hc
    rcases mem_canonicalTail hc with rfl | rfl | hc
    · decide
    · decide
    · exact hclean c (pathAndQuery_subset url hc)

/-- `normalize_url` rewrites the scheme and the authority only: the path and the query of the
result are those of the URL, but for an empty path and an empty query, and there is no
fragment. -/
theorem normalize_keeps_tail {lib : UrlLibraries} (hlib : lib.Lawful) {text result : String}
    (h : normalizeUrl lib text = .ok result) :
    pathAndQuery result.toList = canonicalTail (pathAndQuery (stripBlanks text.toList)) ∧
      ∃ scheme authority, (scheme = "http".toList ∨ scheme = "https".toList) ∧
        authority ≠ [] ∧ (∀ c ∈ authority, isUrlDelimiter c = false) ∧
        result.toList = scheme ++ "://".toList ++ authority ++
          canonicalTail (pathAndQuery (stripBlanks text.toList)) := by
  obtain ⟨scheme, hostname, port, hform⟩ := exists_normalForm hlib h
  obtain ⟨hauthority, hchars⟩ :=
    @authorityText_spec scheme _ _ hform.nonempty hform.marks hform.ports
  have hdelimiters : ∀ c ∈ authorityText scheme hostname port, isUrlDelimiter c = false :=
    fun c hc => isUrlDelimiter_of_authorityMark (hchars c hc)
  refine ⟨?_, scheme, _, hform.schemes, hauthority, hdelimiters, hform.text⟩
  rw [hform.text]
  exact pathAndQuery_append hform.schemes hdelimiters hform.absolute hform.fragment

theorem toLower_eq_percent {c : Char} (h : c.toLower = '%') : c = '%' := by
  unfold Char.toLower at h
  split at h
  · next hupper =>
      have hlow : 'A'.val ≤ c.val := hupper.1
      have hvalue := congrArg (fun c => c.val.toNat) h
      have hsum : (c.val + 32).toNat = 37 := hvalue
      have hhigh : c.val ≤ 'Z'.val := hupper.2
      have hlow' : 65 ≤ c.val.toNat := UInt32.le_iff_toNat_le.mp hlow
      have hhigh' : c.val.toNat ≤ 90 := UInt32.le_iff_toNat_le.mp hhigh
      rw [UInt32.toNat_add, Nat.mod_eq_of_lt] at hsum
      · change c.val.toNat + 32 = 37 at hsum
        omega
      · change c.val.toNat + 32 < 2 ^ 32
        omega
  · exact h

/-- The libraries on texts of ASCII characters that are no addresses. -/
def sampleUrlLibraries : UrlLibraries where
  lower := List.map Char.toLower
  nfc := id
  nfkc := id
  ipAddress _ := none
  rawHost := some

theorem sampleUrlLibraries_lawful : sampleUrlLibraries.Lawful where
  lower_percent value h hmem := by
    obtain ⟨c, hc, hlower⟩ := List.mem_map.mp hmem
    exact h (toLower_eq_percent hlower ▸ hc)
  nfc_percent _ h := h
  compressed _ _ h := by cases h

theorem normalize_keeps_tail_signed :
    pathAndQuery "http://example.com/%7Elist;v=1//?page=3&a=&a=".toList =
      canonicalTail (pathAndQuery (stripBlanks
        " HTTP://Example.com./%7Elist;v=1//?page=3&a=&a=#top ".toList)) :=
  (normalize_keeps_tail sampleUrlLibraries_lawful (by decide +kernel)).1

end PortRag.Webpages
