/-
  The settings of the database, read from their URL.

  A URL names a user and a password, a host and a port, a path and a query.  Escapes are resolved after
  the parts are taken apart.
-/
import JavaToCpp.Http.Target
import JavaToCpp.Proofs.Settings.Keywords
import JavaToCpp.Proofs.Text.Percent

namespace JavaToCpp

open List Text

namespace Text

theorem cut?_eq_none_of_notMem {b : UInt8} {t : Text} (h : b ∉ t) : cut? [b] t = none := by
  cases hcut : cut? [b] t with
  | none => rfl
  | some lr =>
    obtain ⟨l, r⟩ := lr
    have ht := (cut?_eq_some.1 hcut).1
    exact absurd (by simp [ht]) h

end Text

/-! ## Queries -/

namespace Http.Form

def option (name : String) (value : Text) : Text :=
  ofString name ++ 61 :: percentEscape .query value

theorem option_ne_nil (name : String) (value : Text) : option name value ≠ [] := by simp [option]

theorem notMem_option {name : String} {b : UInt8}
    (h : !(ofString name).contains b && b != 61 && !UrlPart.query.writes b) (value : Text) :
    b ∉ option name value := by
  simp only [Bool.and_eq_true, Bool.not_eq_true', contains_eq_mem, decide_eq_false_iff_not,
    bne_iff_ne] at h
  simp [option, h.1.1, h.1.2, notMem_percentEscape h.2]

theorem pair?_option {name : String} (hname : percentUnescape? .query name = some (ofString name))
    (hsigns : !(ofString name).contains 59 && !(ofString name).contains 61) (value : Text) :
    pair? (option name value) = some (ofString name, value) := by
  simp only [Bool.and_eq_true, Bool.not_eq_true', contains_eq_mem, decide_eq_false_iff_not] at hsigns
  have hcolon : (option name value).contains (byte ';') = false := by
    rw [Bool.eq_false_iff, ne_eq, contains_iff_mem]
    exact notMem_option (b := 59) (by simp [hsigns.1]; decide) value
  have hcut : cut? (ofString "=") (option name value) =
      some (ofString name, percentEscape .query value) :=
    cut?_of_notMem (b := 61) hsigns.2 _
  rw [pair?, hcolon, hcut]
  simp [hname, percentUnescape?_percentEscape]

theorem ofQuery_two {t u : Text} (ht : 38 ∉ t) (hu : 38 ∉ u) :
    ofQuery (t ++ 38 :: u) = ([t, u].filter fun p => !p.isEmpty).filterMap pair? := by
  have hne : ∀ {t : Text}, 38 ∉ t → ∀ b ∈ t, (b == byte '&') = false := by
    intro t ht b hb
    rw [beq_eq_false_iff_ne]
    rintro rfl
    exact ht hb
  have hcount : (t ++ 38 :: u).count (byte '&') = 1 := by
    show (t ++ 38 :: u).count 38 = 1
    rw [count_append, count_cons_self, count_eq_zero.2 ht, count_eq_zero.2 hu]
  have hlong : isTooLong (t ++ 38 :: u) = false := by
    rw [isTooLong, hcount]
    decide
  rw [ofQuery, hlong, parts, splitOnP_append_cons_of_forall_mem (hne ht) 38 (by decide),
    splitOnP_eq_singleton (hne hu)]
  rfl

end Http.Form

namespace Settings

/-! ## Reading a URL -/

structure Address where
  host : Text
  port : Text
  user : Text
  password : Text
  name : Text
  options : Http.Form
deriving DecidableEq, Repr

def userInfo? (t : Text) : Option (Text × Text) :=
  if t.all fun b => isLetter b || isDigit b || oneOf "-._:~!$&'()*+,;=%@" b then
    let (user, password) := (cut? [byte ':'] t).getD (t, [])
    do return (← percentUnescape? .user user, ← percentUnescape? .user password)
  else none

/-- What comes before and after the colon in front of the port.  A host with colons stands in brackets. -/
def colon? : Text → Option (Text × Text)
  | 91 :: t => (cut? [byte ']'] t).bind fun (host, rest) =>
    (stripPrefix? [byte ':'] rest).map fun port => (host, port)
  | t => (cut? [byte ':'] t).filter fun (host, _) => !host.contains (byte ']')

def hostPort? (t : Text) : Option (Text × Text) :=
  (colon? t).filter fun (host, port) => !host.contains (byte '[') && port.all isDigit

/-- What comes before and after the last `@`; without one, all comes after it. -/
def atSign (t : Text) : Text × Text :=
  match cut? [byte '@'] t.reverse with
  | some (after, before) => (before.reverse, after.reverse)
  | none => ([], t)

/-- What a URL of a database names after its scheme. -/
def place? (t : Text) : Option Address := do
  let (t, query) := (cut? [byte '?'] t).getD (t, [])
  let (info, hostPort) := atSign (t.takeWhile (· != byte '/'))
  let (user, password) ← userInfo? info
  let (host, port) ← hostPort? (← hostText? hostPort)
  let path ← percentUnescape? .path (t.dropWhile (· != byte '/'))
  return { host, port, user, password, name := path.tail, options := Http.Form.ofQuery query }

def address? (t : Text) : Option Address :=
  if t.any Http.Target.isControl then none
  else
    let t := ((cut? [byte '#'] t).map Prod.fst).getD t
    (stripPrefix? "postgres://" t).bind place?

def Address.parameters (a : Address) : List (Text × Text) :=
  [("host", a.host), ("port", a.port), ("user", a.user), ("password", a.password), ("dbname", a.name),
    ("sslmode", a.options.first "sslmode"), ("search_path", a.options.first "search_path")]

theorem atSign_append {info host : Text} (h : 64 ∉ host) : atSign (info ++ 64 :: host) = (info, host) := by
  have hcut : cut? [byte '@'] (info ++ 64 :: host).reverse = some (host.reverse, info.reverse) := by
    rw [reverse_append, reverse_cons, append_assoc]
    exact cut?_of_notMem (b := 64) (by simpa using h) info.reverse
  rw [atSign, hcut]
  simp only [reverse_reverse]

theorem place?_eq {info host path query : Text} (hquery : 63 ∉ info ++ 64 :: (host ++ path))
    (hstroke : 47 ∉ info ++ 64 :: host) (hat : 64 ∉ host) (hpath : ∀ b ∈ path.head?, b = 47) :
    place? (info ++ 64 :: (host ++ (path ++ 63 :: query))) = do
      let (user, password) ← userInfo? info
      let (host, port) ← hostPort? (← hostText? host)
      let path ← percentUnescape? .path path
      return { host, port, user, password, name := path.tail, options := Http.Form.ofQuery query } := by
  have htext : info ++ 64 :: (host ++ (path ++ 63 :: query)) =
      (info ++ 64 :: (host ++ path)) ++ 63 :: query := by
    simp
  have hcut : cut? [byte '?'] (info ++ 64 :: (host ++ (path ++ 63 :: query))) =
      some (info ++ 64 :: (host ++ path), query) := by
    rw [htext]
    exact cut?_of_notMem (b := 63) hquery query
  have hauthority : ∀ b ∈ info ++ 64 :: host, (b != byte '/') = true := by
    intro b hb
    simp only [bne_iff_ne]
    rintro rfl
    exact hstroke hb
  have hstart : ∀ b ∈ path.head?, (b != byte '/') = false := by
    intro b hb
    rw [hpath b hb]
    decide
  have hsplit : info ++ 64 :: (host ++ path) = (info ++ 64 :: host) ++ path := by simp
  have htake : (info ++ 64 :: (host ++ path)).takeWhile (· != byte '/') = info ++ 64 :: host := by
    rw [hsplit, takeWhile_append_of_pos hauthority]
    cases path with
    | nil => simp
    | cons b path => rw [takeWhile_cons_of_neg (by simp [hstart b rfl]), append_nil]
  have hdrop : (info ++ 64 :: (host ++ path)).dropWhile (· != byte '/') = path := by
    rw [hsplit, dropWhile_append_of_pos hauthority, dropWhile_eq_self hstart]
  rw [place?, hcut]
  simp only [Option.getD_some, htake, hdrop, atSign_append hat]

/-- Whether a byte is neither a control character nor the mark before a fragment. -/
def isBody (b : UInt8) : Bool := !Http.Target.isControl b && b != 35

theorem isBody_of_le {b : UInt8} (h : 36 ≤ b) (h' : b ≤ 126) : isBody b := by
  simp only [UInt8.le_iff_toNat_le, UInt8.reduceToNat] at h h'
  simp only [isBody, Http.Target.isControl, Bool.and_eq_true, Bool.not_eq_true', Bool.or_eq_false_iff,
    decide_eq_false_iff_not, UInt8.lt_iff_toNat_lt, beq_eq_false_iff_ne, bne_iff_ne, ne_eq, ← UInt8.toNat_inj,
    UInt8.reduceToNat]
  omega

theorem isBody_of_writes {p : UrlPart} {b : UInt8} (h : p.writes b) : isBody b := by
  have hsigns : ∀ {cs : String}, (ofString cs).all isBody → oneOf cs b → isBody b := by
    intro cs hcs hb
    exact all_eq_true.1 hcs b (contains_iff_mem.1 hb)
  have hword : isLetter b || isDigit b → isBody b := by
    simp only [isLetter, isUpper, isLower, isDigit, Bool.or_eq_true, Bool.and_eq_true,
      decide_eq_true_eq]
    rintro ((⟨h, h'⟩ | ⟨h, h'⟩) | ⟨h, h'⟩)
    all_goals exact isBody_of_le (Nat.le_trans (by decide) h) (Nat.le_trans h' (by decide))
  simp only [UrlPart.writes, UrlPart.keeps, Bool.or_eq_true, beq_iff_eq, Bool.and_eq_true] at h
  rcases h with (((h | h) | h) | rfl) | ⟨-, rfl⟩
  · exact hword (Bool.or_eq_true_iff.2 h)
  · exact hsigns (by decide) h
  · cases p with
    | user | host | path => exact hsigns (by decide) h
    | query => cases h
  · decide
  · decide

theorem address?_eq {t : Text} (h : ∀ b ∈ t, isBody b) : address? ("postgres://" ++ t) = place? t := by
  have hscheme : (ofString "postgres://").all isBody := by decide
  have hall : ∀ b ∈ ofString "postgres://" ++ t, Http.Target.isControl b = false ∧ b ≠ 35 := by
    intro b hb
    have hbody : isBody b := by
      rcases mem_append.1 hb with hb | hb
      · exact all_eq_true.1 hscheme b hb
      · exact h b hb
    simpa [isBody] using hbody
  have hcontrol : (ofString "postgres://" ++ t).any Http.Target.isControl = false := by
    rw [any_eq_false]
    intro b hb
    rw [(hall b hb).1]
    decide
  have hmark : cut? [byte '#'] (ofString "postgres://" ++ t) = none :=
    cut?_eq_none_of_notMem (b := 35) fun hb => (hall 35 hb).2 rfl
  rw [address?, hcontrol, hmark]
  simp [stripPrefix?_eq_some.2 rfl]

/-! ## The parts of the URL of a database -/

theorem userInfo?_escaped (user password : Text) :
    userInfo? (percentEscape .user user ++ 58 :: percentEscape .user password) =
      some (user, password) := by
  have hbyte : ∀ {b}, UrlPart.user.writes b →
      isLetter b || isDigit b || oneOf "-._:~!$&'()*+,;=%@" b := by
    intro b hb
    have hsigns : (ofString "-_.~" ++ ofString "$&+,;=" ++ [37]).all
        (oneOf "-._:~!$&'()*+,;=%@") := by decide
    have hone : b ∈ ofString "-_.~" ++ ofString "$&+,;=" ++ [37] →
        oneOf "-._:~!$&'()*+,;=%@" b := all_eq_true.1 hsigns b
    simp only [mem_append, mem_singleton] at hone
    simp only [UrlPart.writes, UrlPart.keeps, oneOf, contains_iff_mem, Bool.or_eq_true,
      beq_iff_eq, Bool.and_eq_true, decide_eq_true_eq, reduceCtorEq, false_and, or_false] at hb hone ⊢
    tauto
  have hall : (percentEscape .user user ++ 58 :: percentEscape .user password).all fun b =>
      isLetter b || isDigit b || oneOf "-._:~!$&'()*+,;=%@" b := by
    rw [all_append, all_cons, Bool.and_eq_true, Bool.and_eq_true]
    exact ⟨all_eq_true.2 fun b hb => hbyte (writes_of_mem hb), by decide,
      all_eq_true.2 fun b hb => hbyte (writes_of_mem hb)⟩
  have hcut : cut? [byte ':']
      (percentEscape .user user ++ 58 :: percentEscape .user password) =
      some (percentEscape .user user, percentEscape .user password) :=
    cut?_of_notMem (b := 58) (notMem_percentEscape (by decide) user) _
  rw [userInfo?, if_pos hall, hcut]
  simp [percentUnescape?_percentEscape]

theorem hostPort?_eq_some_iff {host port : Text} :
    hostPort? (host ++ 58 :: port) = some (host, port) ↔
      58 ∉ host ∧ 91 ∉ host ∧ 93 ∉ host ∧ port.all isDigit := by
  have hbracket : ∀ {host : Text}, (!host.contains (byte '[')) = true ↔ 91 ∉ host := by
    intro host
    rw [Bool.not_eq_true', Bool.eq_false_iff, ne_eq, contains_iff_mem]
    rfl
  have hclosing : ∀ {host : Text}, (!host.contains (byte ']')) = true ↔ 93 ∉ host := by
    intro host
    rw [Bool.not_eq_true', Bool.eq_false_iff, ne_eq, contains_iff_mem]
    rfl
  rw [hostPort?, Option.filter_eq_some_iff, Bool.and_eq_true, hbracket]
  by_cases hopen : 91 ∈ host
  · simp [hopen]
  -- without a bracket the port stands after the first colon
  have hcolon : colon? (host ++ 58 :: port) =
      (cut? [byte ':'] (host ++ 58 :: port)).filter fun (host, _) =>
        !host.contains (byte ']') := by
    rw [colon?]
    intro t ht
    cases host with
    | nil => cases ht
    | cons b host => exact hopen (by rw [(List.cons.inj ht).1]; exact mem_cons_self)
  rw [hcolon, Option.filter_eq_some_iff, hclosing]
  have hcut : cut? [byte ':'] (host ++ 58 :: port) = some (host, port) ↔ 58 ∉ host := by
    constructor
    · intro h hmem
      obtain ⟨l, r, rfl⟩ := append_of_mem hmem
      have hfirst := (cut?_eq_some.1 h).2 l (r ++ 58 :: port) (by simp [byte]; rfl)
      simp at hfirst
    · intro h
      exact cut?_of_notMem h port
  rw [hcut]
  tauto

namespace Database

theorem head?_percentEscape_path (t : Text) :
    (percentEscape .path t).head? = some 47 ↔ t.head? = some 47 := by
  cases t with
  | nil => simp [percentEscape]
  | cons b t =>
    rw [percentEscape, flatMap_cons, ← percentEscape]
    by_cases hkeeps : UrlPart.path.keeps b
    · simp [hkeeps]
    · have hb : b ≠ 47 := by
        rintro rfl
        exact hkeeps (by decide)
      simp [hkeeps, hb, escapedByte_eq]

theorem percentEscape_eq_nil {p : UrlPart} {t : Text} : percentEscape p t = [] ↔ t = [] := by
  constructor
  · intro h
    have hback := percentUnescape?_percentEscape p t
    rw [h] at hback
    exact (Option.some.inj hback).symm
  · rintro rfl
    rfl

theorem percentUnescape?_urlPath (d : Database) : percentUnescape? .path d.urlPath =
    some (if d.name = [] ∨ d.name.head? = some 47 then d.name else 47 :: d.name) := by
  rw [urlPath]
  by_cases hstar : d.name = ofString "*"
  · rw [hstar]
    decide
  · have hstroke : byte '/' = 47 := rfl
    have hhead := head?_percentEscape_path d.name
    simp only [hstar, if_false, Bool.or_eq_true, List.isEmpty_iff, percentEscape_eq_nil, beq_iff_eq, hstroke]
    by_cases hpath : d.name = [] ∨ d.name.head? = some 47
    · rw [if_pos (hpath.imp_right hhead.2), if_pos hpath, percentUnescape?_percentEscape]
    · rw [if_neg (mt (Or.imp_right hhead.1) hpath), if_neg hpath, percentUnescape?_cons (by decide),
        percentUnescape?_percentEscape]
      rfl

theorem ofQuery_options (d : Database) :
    Http.Form.ofQuery ("search_path=" ++ percentEscape .query d.searchPath ++
      "&sslmode=" ++ percentEscape .query d.sslMode) =
    [(ofString "search_path", d.searchPath), (ofString "sslmode", d.sslMode)] := by
  have hschema : ofString "search_path=" = ofString "search_path" ++ [61] := by decide
  have hmode : ofString "&sslmode=" = 38 :: ofString "sslmode" ++ [61] := by decide
  have htext : ofString "search_path=" ++ percentEscape .query d.searchPath ++
      ofString "&sslmode=" ++ percentEscape .query d.sslMode =
      Http.Form.option "search_path" d.searchPath ++ 38 :: Http.Form.option "sslmode" d.sslMode := by
    rw [hschema, hmode]
    simp [Http.Form.option]
  have hschema' : Http.Form.pair? (Http.Form.option "search_path" d.searchPath) = _ :=
    Http.Form.pair?_option (by decide) (by decide) d.searchPath
  have hmode' : Http.Form.pair? (Http.Form.option "sslmode" d.sslMode) = _ :=
    Http.Form.pair?_option (by decide) (by decide) d.sslMode
  rw [htext, Http.Form.ofQuery_two (Http.Form.notMem_option (by decide) _)
    (Http.Form.notMem_option (by decide) _)]
  simp [Http.Form.option_ne_nil, hschema', hmode']

theorem url_eq (d : Database) : d.url = "postgres://" ++
    ((percentEscape .user d.user ++ 58 :: percentEscape .user d.password) ++
      64 :: (percentEscape .host (d.host ++ 58 :: d.port) ++
        (d.urlPath ++ 63 :: (ofString "search_path=" ++ percentEscape .query d.searchPath ++
          ofString "&sslmode=" ++ percentEscape .query d.sslMode)))) := by
  have hcolon : ofString ":" = [58] := by decide
  have hat : ofString "@" = [64] := by decide
  have hquery : ofString "?search_path=" = 63 :: ofString "search_path=" := by decide
  rw [url, hcolon, hat, hquery]
  simp

theorem urlPath_cases (d : Database) : ∃ path, (path = percentEscape .path d.name ∨ path = [42]) ∧
    (d.urlPath = path ∧ (path = [] ∨ path.head? = some 47) ∨ d.urlPath = 47 :: path) := by
  refine ⟨if d.name = ofString "*" then d.name else percentEscape .path d.name, ?_, ?_⟩
  · split
    · rename_i hstar
      exact .inr hstar
    · exact .inl rfl
  · simp only [urlPath]
    generalize (if d.name = ofString "*" then d.name else percentEscape .path d.name) = path
    by_cases hpath : (path.isEmpty || path.head? == some (byte '/')) = true
    · rw [if_pos hpath]
      simp only [Bool.or_eq_true, List.isEmpty_iff, beq_iff_eq] at hpath
      exact .inl ⟨rfl, hpath⟩
    · rw [if_neg hpath]
      exact .inr rfl

theorem writes_of_mem_urlPath {d : Database} {b : UInt8} (h : b ∈ d.urlPath) :
    UrlPart.path.writes b ∨ b = 42 := by
  obtain ⟨path, htext, hpath⟩ := d.urlPath_cases
  have hmem : b = 47 ∨ b ∈ path := by
    rcases hpath with ⟨hpath, -⟩ | hpath
    · rw [hpath] at h
      exact .inr h
    · rw [hpath] at h
      exact mem_cons.1 h
  rcases hmem with rfl | hmem
  · exact .inl (by decide)
  rcases htext with rfl | rfl
  · exact .inl (writes_of_mem hmem)
  · exact .inr (mem_singleton.1 hmem)

theorem head?_urlPath {d : Database} {b : UInt8} (h : b ∈ d.urlPath.head?) : b = 47 := by
  obtain ⟨path, -, ⟨hpath, rfl | hhead⟩ | hpath⟩ := d.urlPath_cases
  · rw [hpath] at h
    cases h
  · rw [hpath, hhead] at h
    exact (Option.some.inj h).symm
  · rw [hpath] at h
    exact (Option.some.inj h).symm

theorem address?_url (d : Database) : address? d.url =
    ((hostText? (percentEscape .host (d.host ++ 58 :: d.port))).bind hostPort?).map fun (host, port) =>
      { host, port, user := d.user, password := d.password
        name := (if d.name = [] ∨ d.name.head? = some 47 then d.name else 47 :: d.name).tail
        options := [(ofString "search_path", d.searchPath), (ofString "sslmode", d.sslMode)] } := by
  have hbody : ∀ {p : UrlPart} {t : Text}, (percentEscape p t).all isBody := by
    intro p t
    exact all_eq_true.2 fun b hb => isBody_of_writes (writes_of_mem hb)
  have hpath : d.urlPath.all isBody := by
    rw [all_eq_true]
    intro b hb
    rcases writes_of_mem_urlPath hb with hb | rfl
    · exact isBody_of_writes hb
    · decide
  have hnotMem : ∀ {b : UInt8}, UrlPart.user.writes b = false → UrlPart.host.writes b = false →
      b ≠ 58 → b ≠ 64 → b ∉ (percentEscape .user d.user ++ 58 :: percentEscape .user d.password) ++
        64 :: percentEscape .host (d.host ++ 58 :: d.port) := by
    intro b huser hhost hcolon hat
    simp [notMem_percentEscape huser, notMem_percentEscape hhost, hcolon, hat]
  have hquery : 63 ∉ d.urlPath := by
    intro hmem
    rcases writes_of_mem_urlPath hmem with h | h
    · exact absurd h (by decide)
    · exact absurd h (by decide)
  rw [url_eq, address?_eq, place?_eq]
  · rw [userInfo?_escaped, percentUnescape?_urlPath, ofQuery_options]
    simp only [Option.bind_eq_bind, Option.bind_some]
    cases hostText? (percentEscape .host (d.host ++ 58 :: d.port)) with
    | none => rfl
    | some t =>
      cases hhost : hostPort? t with
      | none => simp [hhost]
      | some hp => simp [hhost]
  · rw [← cons_append, ← append_assoc, mem_append]
    rintro (h | h)
    · exact hnotMem (by decide) (by decide) (by decide) (by decide) h
    · exact hquery h
  · exact hnotMem (by decide) (by decide) (by decide) (by decide)
  · exact notMem_percentEscape (by decide) _
  · exact fun b hb => head?_urlPath hb
  · rw [← all_eq_true]
    simp only [all_append, all_cons, hbody, hpath, Bool.and_true, Bool.true_and]
    decide

/-- **The URL of a database gives its settings back if and only if its host is one that a URL can name,
    its port is a number and its name does not start with a stroke.** -/
theorem address?_url_iff (d : Database) : (∃ a, address? d.url = some a ∧ a.parameters = d.parameters) ↔
    (∀ b ∈ d.host, isHost b ∧ b ≠ 58 ∧ b ≠ 91 ∧ b ≠ 93) ∧ d.port.all isDigit ∧
      d.name.head? ≠ some 47 := by
  have hname : (if d.name = [] ∨ d.name.head? = some 47 then d.name else 47 :: d.name).tail = d.name ↔
      d.name.head? ≠ some 47 := by
    cases d.name with
    | nil => simp
    | cons b name =>
      by_cases hb : b = 47
      · have hlength : name ≠ 47 :: name := fun h => absurd (congrArg length h) (by simp)
        simp [hb, hlength]
      · simp [hb]
  have hdigits : d.port.all isDigit → d.port.all isHost := by
    intro hport
    rw [all_eq_true] at hport ⊢
    intro b hb
    simp [isHost, UrlPart.keeps, hport b hb]
  have hread : ∀ {host port : Text},
      (hostText? (percentEscape .host (d.host ++ 58 :: d.port))).bind hostPort? =
        some (host, port) ↔ (d.host.all isHost ∧ d.port.all isHost) ∧
          hostPort? (d.host ++ 58 :: d.port) = some (host, port) := by
    intro host port
    have hcolon : isHost 58 := by decide
    rw [hostText?_percentEscape, all_append, all_cons, hcolon, Bool.true_and]
    by_cases hall : (d.host.all isHost && d.port.all isHost) = true
    · rw [if_pos hall, ← Bool.and_eq_true]
      simp [hall]
    · rw [if_neg hall, ← Bool.and_eq_true]
      simp [hall]
  have hhost : (∀ b ∈ d.host, isHost b ∧ b ≠ 58 ∧ b ≠ 91 ∧ b ≠ 93) ↔
      d.host.all isHost ∧ 58 ∉ d.host ∧ 91 ∉ d.host ∧ 93 ∉ d.host := by
    simp [forall_and, forall_mem_ne']
  rw [address?_url, hhost, ← hname]
  constructor
  · rintro ⟨a, ha, hparameters⟩
    obtain ⟨⟨host, port⟩, hsome, rfl⟩ := Option.map_eq_some_iff.1 ha
    simp only [Address.parameters, parameters, List.cons.injEq, Prod.mk.injEq, true_and, and_true]
      at hparameters
    obtain ⟨rfl, rfl, htail, -⟩ := hparameters
    obtain ⟨⟨hall, -⟩, hport⟩ := hread.1 hsome
    obtain ⟨hcolon, hopen, hclosing, hdigit⟩ := hostPort?_eq_some_iff.1 hport
    exact ⟨⟨hall, hcolon, hopen, hclosing⟩, hdigit, htail⟩
  · rintro ⟨⟨hall, hcolon, hopen, hclosing⟩, hdigit, htail⟩
    have hport := hostPort?_eq_some_iff.2 ⟨hcolon, hopen, hclosing, hdigit⟩
    refine ⟨_, Option.map_eq_some_iff.2 ⟨(d.host, d.port), hread.2 ⟨⟨hall, hdigits hdigit⟩, hport⟩, rfl⟩, ?_⟩
    simp only [Address.parameters, parameters, htail]
    rfl

/-- **What the two ways of writing the settings give back.**  The keywords give back settings that can do
    without quotes, none of them empty but the last.  The URL gives back all settings of a host that a URL
    can name with a number as its port, if the name does not start with a stroke. -/
theorem keywords_and_url_back (d : Database) :
    (settings? d.keywords = some d.parameters ↔
      (∀ p ∈ d.parameters, Bare p.2) ∧ ∀ p ∈ d.parameters.dropLast, p.2 ≠ []) ∧
    ((∃ a, address? d.url = some a ∧ a.parameters = d.parameters) ↔
      (∀ b ∈ d.host, isHost b ∧ b ≠ 58 ∧ b ≠ 91 ∧ b ≠ 93) ∧ d.port.all isDigit ∧
        d.name.head? ≠ some 47) := by
  refine ⟨?_, d.address?_url_iff⟩
  rw [settings?_keywords_iff]
  constructor
  · intro h
    exact ⟨h.bare, h.full⟩
  · rintro ⟨hbare, hfull⟩
    refine ⟨?_, hbare, hfull⟩
    simp only [parameters, forall_mem_cons]
    decide

/-- The settings that hold without variables have an empty password: the keywords give the name of the
    database as the password, and no name. -/
theorem empty_password_takes_name :
    settings? ({} : Database).keywords = some ([("host", "localhost"), ("port", "5432"), ("user", "postgres"),
      ("password", "dbname=transpiler"), ("sslmode", "disable"), ("search_path", "public")] : Http.Form) ∧
    (address? ({} : Database).url).map Address.parameters = some ({} : Database).parameters := by
  decide +kernel

end Database

end Settings

end JavaToCpp
