import Matcha.Task.Corn
import Mathlib.Tactic.Ring
import Mathlib.Data.Nat.Digits

/-! # URLs

`URL`, `URL.String`, `URL.Parse` and `ParseUrl` of `util/url.go`. A string is the list of its
characters, and `Param` the list of its entries in the order `range` visits them. -/
namespace Matcha.Util

open Matcha.Task

/-- `\w` of RE2: an ASCII letter or digit, or `_`. -/
def isWordChar (c : Char) : Bool := c.isAlphanum || c == '_'

/-- `[\w-_.]`, the characters of a protocol and of a host. -/
def isHostChar (c : Char) : Bool := isWordChar c || c == '-' || c == '.'

/-- `[\w-_]`, the characters of a user, of a path segment and of a parameter key. -/
def isNameChar (c : Char) : Bool := isWordChar c || c == '-'

/-- `[\w-_!@#$%^&*]`, the characters of a password. -/
def isPasswordChar (c : Char) : Bool := isNameChar c || "!@#$%^&*".toList.contains c

structure URL where
  protocol : List Char := []
  user : List Char := []
  password : List Char := []
  host : List Char := []
  port : Int := 0
  path : List Char := []
  param : List (List Char × List Char) := []
  deriving DecidableEq, Repr

def itoa (n : Int) : List Char :=
  if n < 0 then '-' :: Nat.toDigits 10 n.natAbs else Nat.toDigits 10 n.toNat

def paramEntry (e : List Char × List Char) : List Char := e.1 ++ '=' :: e.2

/-- The parameters as `String` writes them: `?`, then the entries in iteration order with `&`
between them; nothing for an empty map. -/
def paramText : List (List Char × List Char) → List Char
  | [] => []
  | e :: es => '?' :: join '&' (paramEntry e) (es.map paramEntry)

def URL.string (url : URL) : List Char :=
  (if url.protocol ≠ [] then url.protocol ++ [':', '/', '/'] else []) ++
  (if url.user ≠ [] then
    url.user ++ (if url.password ≠ [] then ':' :: url.password else []) ++ ['@'] else []) ++
  (if url.host ≠ [] then url.host else []) ++
  (if url.port ≠ 0 then ':' :: itoa url.port else []) ++
  (if url.path ≠ [] then url.path else []) ++
  paramText url.param

/-- `strings.Trim(s, " ")`. -/
def trimSpaces (s : List Char) : List Char :=
  ((s.dropWhile (· == ' ')).reverse.dropWhile (· == ' ')).reverse

/-- `strings.Replace(s, old, "", 1)`: `s` without the first occurrence of `old`. An empty `old`
matches at the start and takes nothing out. -/
def removeFirst (s old : List Char) : List Char :=
  match s with
  | [] => []
  | c :: t => if old.isPrefixOf (c :: t) then (c :: t).drop old.length else c :: removeFirst t old

/-- `regexpProtocol.FindString`, `^[\w-_.]+://`: the run of protocol characters at the start
with the `://` after it. A shorter run is followed by a protocol character, not by `:`, so no
other match exists. -/
def findProtocol (s : List Char) : List Char :=
  let run := s.takeWhile isHostChar
  if !run.isEmpty && [':', '/', '/'].isPrefixOf (s.drop run.length) then run ++ [':', '/', '/'] else []

/-- Whether `q` is in `(:[\w-_!@#$%^&*]+)*`: cut at its colons, it is an empty part followed by
non-empty runs of password characters. -/
def isAuthTail (q : List Char) : Bool :=
  match q.splitOn ':' with
  | [] => false
  | first :: segs => first.isEmpty && segs.all fun seg => !seg.isEmpty && seg.all isPasswordChar

/-- `regexpAuth.FindString`, `^[\w-_]+(:[\w-_!@#$%^&*]+)*@`. The run of user characters is taken
whole: a shorter one is followed by a user character, which is neither `:` nor `@`. After it the
search tries the longer choice first at each step (one more iteration, a longer run), so it
returns the longest tail in `(:…+)*` that an `@` follows. -/
def findAuth (s : List Char) : List Char :=
  let user := s.takeWhile isNameChar
  let rest := s.drop user.length
  match ((List.range rest.length).filter fun p =>
      isAuthTail (rest.take p) && rest[p]? == some '@').getLast? with
  | some p => if user.isEmpty then [] else user ++ rest.take p ++ ['@']
  | none => []

def findHost (s : List Char) : List Char := s.takeWhile isHostChar

def findPort : List Char → List Char
  | ':' :: t => if (t.takeWhile Char.isDigit).isEmpty then [] else ':' :: t.takeWhile Char.isDigit
  | _ => []

/-- `regexpPath.FindString`, `^(/[\w-_]*)+`: a `/` and then every path character and `/`. -/
def findPath : List Char → List Char
  | '/' :: t => '/' :: t.takeWhile fun c => c == '/' || isNameChar c
  | _ => []

/-- `regexpParam.FindString`, `^(\?[\w-_]+=[\w\W]+)(&[\w-_]+=[\w\W]+)*`. `[\w\W]+` takes every
character that is left, so the match is the whole text when it starts with `?`, a key, `=` and
at least one more character, and nothing otherwise. -/
def findParam (s : List Char) : List Char :=
  match s with
  | '?' :: t =>
    match t.drop (t.takeWhile isNameChar).length with
    | '=' :: _ :: _ => if (t.takeWhile isNameChar).isEmpty then [] else s
    | _ => []
  | _ => []

/-- The `int` that `strconv.Atoi` returns beside its error: `0` when `s` is not a number, and
the bound of `int` on the side of its sign when the number does not fit. -/
def atoiValue (s : List Char) : Int :=
  match atoi s with
  | .ok v => v
  | .error _ => if isDigits (stripSign s).2 then (if (stripSign s).1 then -2 ^ 63 else 2 ^ 63 - 1)
    else 0

def mapSet {κ ν : Type} [BEq κ] (m : List (κ × ν)) (k : κ) (v : ν) : List (κ × ν) :=
  m.filter (·.1 != k) ++ [(k, v)]

def parseProtocol (url : URL) (src : List Char) : URL × List Char :=
  let protocolSeq := findProtocol src
  ({ url with
      protocol := if 3 ≤ protocolSeq.length then protocolSeq.take (protocolSeq.length - 3)
        else [] },
    removeFirst src protocolSeq)

/-- The auth block of `Parse`. A user and password already in `url` stay when nothing matches. -/
def parseAuth (url : URL) (src : List Char) : URL × List Char :=
  let authSeq := findAuth src
  (if 1 < authSeq.length then
      match authSeq.dropLast.splitOn ':' with
      | user :: password :: _ => { url with user := user, password := password }
      | [user] => { url with user := user }
      | [] => url
    else url,
    removeFirst src authSeq)

def parseHost (url : URL) (src : List Char) : URL × List Char :=
  let hostSeq := findHost src
  ({ url with host := hostSeq }, removeFirst src hostSeq)

/-- The port block of `Parse`; `Atoi`'s error is dropped, so a missing port is `0`. -/
def parsePort (url : URL) (src : List Char) : URL × List Char :=
  let portSeq := findPort src
  ({ url with port := atoiValue (removeFirst portSeq [':']) }, removeFirst src portSeq)

def parsePath (url : URL) (src : List Char) : URL × List Char :=
  let pathSeq := findPath src
  ({ url with path := pathSeq }, removeFirst src pathSeq)

/-- The loop of the parameter block: each `k=v…` part sets `k` to the text between its first
and second `=`; a part without `=` is skipped. -/
def setParams (m : List (List Char × List Char)) (params : List (List Char)) :
    List (List Char × List Char) :=
  params.foldl (fun m param =>
    match param.splitOn '=' with
    | k :: v :: _ => mapSet m k v
    | _ => m) m

def parseParam (url : URL) (src : List Char) : URL :=
  let paramSeq := findParam src
  if 0 < paramSeq.length then { url with param := setParams url.param ((paramSeq.drop 1).splitOn '&') }
  else url

/-- `Parse`: each block reads its field off the front of what the one before left. -/
def URL.parse (url : URL) (src : List Char) : URL :=
  let r := parseProtocol url (trimSpaces src)
  let r := parseAuth r.1 r.2
  let r := parseHost r.1 r.2
  let r := parsePort r.1 r.2
  let r := parsePath r.1 r.2
  parseParam r.1 r.2

def parseUrl (src : List Char) : URL := URL.parse {} src

@[simp] theorem removeFirst_nil (s : List Char) : removeFirst s [] = s := by
  cases s <;> simp [removeFirst]

@[simp] theorem removeFirst_append (a b : List Char) : removeFirst (a ++ b) a = b := by
  cases a with
  | nil => simp
  | cons c a => simp [removeFirst, List.isPrefixOf_iff_prefix]

theorem dropWhile_eq_self_of_head {α : Type} [BEq α] [LawfulBEq α] {a : α} {s : List α}
    (h : s.head? ≠ some a) : s.dropWhile (· == a) = s := by
  cases s with
  | nil => rfl
  | cons c s =>
    have hc : (c == a) = false := by simpa using h
    simp [List.dropWhile, hc]

theorem trimSpaces_append {a b : List Char} (ha : ' ' ∉ a) (hb : b.head? ≠ some ' ') :
    trimSpaces (a ++ b) = a ++ trimSpaces b := by
  have hrev : a.reverse.dropWhile (· == ' ') = a.reverse :=
    dropWhile_eq_self_of_head fun h => ha (List.mem_reverse.mp (List.mem_of_mem_head? h))
  have hab : (a ++ b).head? ≠ some ' ' := by
    cases a with
    | nil => simpa using hb
    | cons c a => simpa using fun (h : c = ' ') => ha (h ▸ List.mem_cons_self c a)
  rw [trimSpaces, trimSpaces, dropWhile_eq_self_of_head hab, dropWhile_eq_self_of_head hb, List.reverse_append,
    List.dropWhile_append, hrev]
  split
  · next h => rw [List.isEmpty_iff.mp h]; simp
  · simp

theorem trimSpaces_eq_self {s : List Char} (h₁ : s.head? ≠ some ' ') (h₂ : s.getLast? ≠ some ' ') :
    trimSpaces s = s := by
  rw [trimSpaces, dropWhile_eq_self_of_head h₁, dropWhile_eq_self_of_head (by simpa using h₂), List.reverse_reverse]

theorem digitChar_spec : ∀ d < 10, (Nat.digitChar d).isDigit = true ∧
    (Nat.digitChar d).toNat - '0'.toNat = d := by
  intro d hd
  rcases d with _ | _ | _ | _ | _ | _ | _ | _ | _ | _ | d
  all_goals first | exact ⟨by decide, by decide⟩ | omega

theorem foldl_digits (acc : Nat) (ds : List Char) :
    ds.foldl (fun n c => 10 * n + (c.toNat - '0'.toNat)) acc = acc * 10 ^ ds.length + digitsValue ds := by
  induction ds generalizing acc with
  | nil => simp only [digitsValue, List.foldl_nil, List.length_nil, pow_zero, Nat.mul_one, Nat.add_zero]
  | cons c ds ih =>
    have h0 : digitsValue (c :: ds) = (c.toNat - '0'.toNat) * 10 ^ ds.length + digitsValue ds := by
      rw [digitsValue, List.foldl_cons, Nat.mul_zero, Nat.zero_add, ih]
    rw [List.foldl_cons, ih, h0, List.length_cons, pow_succ]
    ring

theorem toDigitsCore_spec (fuel : Nat) : ∀ n ds, n < fuel →
    digitsValue (Nat.toDigitsCore 10 fuel n ds) = n * 10 ^ ds.length + digitsValue ds ∧
      ((∀ c ∈ ds, c.isDigit = true) → ∀ c ∈ Nat.toDigitsCore 10 fuel n ds, c.isDigit = true) := by
  induction fuel with
  | zero => intro n ds h; omega
  | succ fuel ih =>
    intro n ds h
    obtain ⟨hd, hv⟩ := digitChar_spec (n % 10) (Nat.mod_lt _ (by decide))
    have hcons : digitsValue (Nat.digitChar (n % 10) :: ds) = n % 10 * 10 ^ ds.length + digitsValue ds := by
      rw [digitsValue, List.foldl_cons, foldl_digits, hv, Nat.mul_zero, Nat.zero_add]
    simp only [Nat.toDigitsCore]
    split
    · refine ⟨by rw [hcons, Nat.mod_eq_of_lt (by omega)], fun hds c hc => ?_⟩
      rcases List.mem_cons.mp hc with rfl | hc
      exacts [hd, hds c hc]
    · obtain ⟨ih₁, ih₂⟩ := ih (n / 10) (Nat.digitChar (n % 10) :: ds) (by omega)
      refine ⟨?_, fun hds => ih₂ fun c hc => ?_⟩
      · rw [ih₁, hcons, List.length_cons, pow_succ]
        calc n / 10 * (10 ^ ds.length * 10) + (n % 10 * 10 ^ ds.length + digitsValue ds)
            = (10 * (n / 10) + n % 10) * 10 ^ ds.length + digitsValue ds := by ring
          _ = n * 10 ^ ds.length + digitsValue ds := by rw [Nat.div_add_mod]
      · rcases List.mem_cons.mp hc with rfl | hc
        exacts [hd, hds c hc]

theorem toDigits_spec (n : Nat) :
    isDigits (Nat.toDigits 10 n) = true ∧ digitsValue (Nat.toDigits 10 n) = n := by
  obtain ⟨h₁, h₂⟩ := toDigitsCore_spec (n + 1) n [] (by omega)
  have hv : digitsValue (Nat.toDigits 10 n) = n := by simpa [digitsValue] using h₁
  refine ⟨isDigits_iff.mpr ⟨fun h => ?_, h₂ (by simp)⟩, hv⟩
  rcases n with _ | n
  · exact absurd h (by decide)
  · rw [h] at hv
    simp only [digitsValue, List.foldl_nil] at hv
    omega

theorem isHostChar_of_isNameChar {c : Char} (h : isNameChar c = true) : isHostChar c = true := by
  simp only [isHostChar, isNameChar, Bool.or_eq_true] at h ⊢
  tauto

def isAuthTailChar (c : Char) : Bool := isPasswordChar c || c == ':'

theorem ne_of_isPasswordChar {c : Char} (h : isPasswordChar c = true) : c ∉ [':', '/', '?', ' '] := by
  intro hc
  simp only [List.mem_cons, List.mem_singleton, List.not_mem_nil, or_false] at hc
  rcases hc with rfl | rfl | rfl | rfl <;> exact absurd h (by decide)

theorem takeWhile_append_stop {p : Char → Bool} {a s : List Char} (ha : ∀ c ∈ a, p c = true)
    (hs : ∀ c ∈ s.head?, p c = false) : (a ++ s).takeWhile p = a := by
  rw [List.takeWhile_append_of_pos ha]
  cases s with
  | nil => simp
  | cons c s => simp [List.takeWhile_cons_of_neg (by simpa using hs c rfl)]

theorem mem_takeWhile_append {p : Char → Bool} {a s : List Char} {c : Char}
    (h : c ∈ (a ++ s).takeWhile p) : c ∈ a ∨ c ∈ s.takeWhile p := by
  rw [List.takeWhile_append] at h
  split at h
  · exact List.mem_append.mp h
  · exact .inl ((List.takeWhile_prefix p).subset h)

theorem length_takeWhile_append_le {p : Char → Bool} {a s : List Char}
    (hs : ∀ c ∈ s.head?, p c = false) : ((a ++ s).takeWhile p).length ≤ a.length := by
  rw [List.takeWhile_append]
  split
  · cases s with
    | nil => simp
    | cons c s => simp [List.takeWhile_cons_of_neg (by simpa using hs c rfl)]
  · exact (List.takeWhile_prefix p).length_le

theorem mem_intersperse_of {α : Type} {sep x : α} :
    ∀ {ls : List α}, x ∈ ls.intersperse sep → x = sep ∨ x ∈ ls
  | [], h => absurd h (List.not_mem_nil x)
  | [_], h => .inr h
  | _ :: _ :: _, h => by
    simp only [List.intersperse_cons_cons, List.mem_cons] at h
    rcases h with rfl | rfl | h
    · exact .inr (List.mem_cons_self _ _)
    · exact .inl rfl
    · rcases mem_intersperse_of h with h | h
      · exact .inl h
      · exact .inr (List.mem_cons_of_mem _ h)

theorem isAuthTailChar_of_isAuthTail {q : List Char} (h : isAuthTail q = true) {c : Char}
    (hc : c ∈ q) : isAuthTailChar c = true := by
  rw [← List.intercalate_splitOn q ':'] at hc
  unfold isAuthTail at h
  split at h
  · cases h
  · next first segs hsplit =>
    rw [hsplit] at hc
    simp only [Bool.and_eq_true, List.isEmpty_iff, List.all_eq_true, Bool.not_eq_true',
      List.isEmpty_eq_false] at h
    obtain ⟨rfl, hsegs⟩ := h
    obtain ⟨seg, hseg, hc⟩ := List.mem_flatten.mp hc
    rcases mem_intersperse_of hseg with rfl | hseg
    · simp [List.mem_singleton.mp hc, isAuthTailChar]
    · rcases List.mem_cons.mp hseg with rfl | hseg
      · cases hc
      · simp [isAuthTailChar, (hsegs seg hseg).2 c hc]

theorem isAuthTail_colon {pw : List Char} (hne : pw ≠ []) (hpw : ∀ c ∈ pw, isPasswordChar c = true) :
    isAuthTail (':' :: pw) = true := by
  have hsep : ':' ∉ pw := fun h => absurd (hpw ':' h) (by decide)
  rw [isAuthTail, show ':' :: pw = [] ++ ':' :: pw from rfl, splitOn_append_cons _ (List.not_mem_nil _),
    splitOn_single hsep]
  simpa [hne] using hpw

theorem getLast?_filter_range {f : Nat → Bool} {p n : Nat} (hp : f p = true) (hpn : p < n)
    (hmax : ∀ q, p < q → q < n → f q = false) : ((List.range n).filter f).getLast? = some p := by
  induction n with
  | zero => omega
  | succ n ih =>
    rw [List.range_succ, List.filter_append]
    by_cases h : p = n
    · subst h
      simp [hp]
    · simp [hmax n (by omega) (by omega), ih (by omega) fun q h₁ h₂ => hmax q h₁ (by omega)]

theorem take_prefix_takeWhile {p : Char → Bool} :
    ∀ {s : List Char} {n : Nat}, (∀ c ∈ s.take n, p c = true) → s.take n <+: s.takeWhile p
  | [], _, _ => by simp
  | _, 0, _ => by simp
  | c :: s, n + 1, h => by
    simp only [List.take_succ_cons, List.mem_cons, forall_eq_or_imp] at h ⊢
    rw [List.takeWhile_cons_of_pos h.1]
    exact List.cons_prefix_cons.mpr ⟨rfl, take_prefix_takeWhile h.2⟩

theorem findAuth_append {user q s : List Char} (hu : user ≠ [])
    (huc : ∀ c ∈ user, isNameChar c = true) (hq : isAuthTail q = true)
    (hq₀ : ∀ c ∈ q.head?, c = ':') (hs : '@' ∉ s.takeWhile isAuthTailChar) :
    findAuth (user ++ q ++ '@' :: s) = user ++ q ++ ['@'] := by
  have hrun : (user ++ q ++ '@' :: s).takeWhile isNameChar = user := by
    rw [List.append_assoc]
    refine takeWhile_append_stop huc fun c hc => ?_
    have hc' : c = '@' ∨ c = ':' := by
      cases q with
      | nil => exact .inl (Option.some.inj hc).symm
      | cons d q => exact .inr (Option.some.inj hc ▸ hq₀ d rfl)
    rcases hc' with rfl | rfl <;> decide
  have hlast : ((List.range (q ++ '@' :: s).length).filter fun p =>
      isAuthTail ((q ++ '@' :: s).take p) && (q ++ '@' :: s)[p]? == some '@').getLast? =
      some q.length := by
    have hfirst : (isAuthTail ((q ++ '@' :: s).take q.length) &&
        (q ++ '@' :: s)[q.length]? == some '@') = true := by
      rw [List.take_left, hq, List.getElem?_append_right (Nat.le_refl _), Nat.sub_self,
        List.getElem?_cons_zero]
      rfl
    refine getLast?_filter_range hfirst (by simp) fun p h₁ h₂ => ?_
    rw [Bool.eq_false_iff]
    intro h
    simp only [Bool.and_eq_true, beq_iff_eq] at h
    obtain ⟨k, rfl⟩ : ∃ k, p = q.length + 1 + k := ⟨p - q.length - 1, by omega⟩
    have htake : (q ++ '@' :: s).take (q.length + 1 + k) = q ++ '@' :: s.take k := by
      rw [Nat.add_assoc, List.take_append, Nat.add_comm, List.take_succ_cons]
    have hat : s[k]? = some '@' := by
      have h₃ := h.2
      rwa [Nat.add_assoc, List.getElem?_append_right (by omega), Nat.add_sub_cancel_left,
        Nat.add_comm, List.getElem?_cons_succ] at h₃
    rw [htake] at h
    have hk : ∀ c ∈ s.take (k + 1), isAuthTailChar c = true := by
      intro c hc
      rw [List.take_succ, hat] at hc
      rcases List.mem_append.mp hc with hc | hc
      · exact isAuthTailChar_of_isAuthTail h.1 (List.mem_append_right _ (List.mem_cons_of_mem _ hc))
      · simp only [Option.toList_some, List.mem_singleton] at hc
        subst hc; decide
    refine hs ((take_prefix_takeWhile hk).subset ?_)
    rw [List.take_succ, hat]
    simp
  simp only [findAuth, hrun, List.length_append, Nat.add_sub_cancel_left]
  rw [show (user ++ q ++ '@' :: s).drop user.length = q ++ '@' :: s by simp, hlast]
  simp [hu, List.take_append_eq_append_take]

theorem findAuth_eq_nil {s : List Char}
    (h : '@' ∉ (s.drop (s.takeWhile isNameChar).length).takeWhile isAuthTailChar) :
    findAuth s = [] := by
  simp only [findAuth]
  split
  · next p hp =>
    have hmem := List.mem_filter.mp (List.mem_of_mem_getLast? hp)
    simp only [Bool.and_eq_true, beq_iff_eq] at hmem
    set rest := s.drop (s.takeWhile isNameChar).length
    have hk : ∀ c ∈ rest.take (p + 1), isAuthTailChar c = true := by
      intro c hc
      rw [List.take_succ, hmem.2.2] at hc
      rcases List.mem_append.mp hc with hc | hc
      · exact isAuthTailChar_of_isAuthTail hmem.2.1 hc
      · simp only [Option.toList_some, List.mem_singleton] at hc
        subst hc; decide
    refine absurd ((take_prefix_takeWhile hk).subset ?_) h
    rw [List.take_succ, hmem.2.2]
    simp
  · rfl

theorem ite_ne_nil (l : List Char) : (if l ≠ [] then l else []) = l := by
  split <;> simp_all

theorem itoa_of_nonneg {n : Int} (h : 0 ≤ n) : itoa n = Nat.toDigits 10 n.toNat := by
  simp [itoa, not_lt.mpr h]

theorem atoiValue_toDigits {n : Nat} (h : n < 2 ^ 63) : atoiValue (Nat.toDigits 10 n) = n := by
  obtain ⟨hd, hv⟩ := toDigits_spec n
  rw [atoiValue, atoi_digits hd (by rw [hv]; exact_mod_cast h), hv]

section Steps

variable (url : URL)

theorem parseProtocol_text {p s : List Char} (hp : ∀ c ∈ p, isHostChar c = true)
    (hs : p = [] → findProtocol s = []) :
    parseProtocol url ((if p ≠ [] then p ++ [':', '/', '/'] else []) ++ s) =
      ({ url with protocol := p }, s) := by
  by_cases h : p = []
  · subst h
    simp [parseProtocol, hs rfl]
  · have hrun : (p ++ ':' :: '/' :: '/' :: s).takeWhile isHostChar = p :=
      takeWhile_append_stop hp fun c hc => by cases hc; decide
    have hfind : findProtocol (p ++ [':', '/', '/'] ++ s) = p ++ [':', '/', '/'] := by
      simp [findProtocol, hrun, h, List.isPrefixOf_iff_prefix]
    rw [if_pos h]
    simp only [parseProtocol, hfind, removeFirst_append]
    simp

theorem parseAuth_text {user pw s : List Char} (hu : ∀ c ∈ user, isNameChar c = true)
    (hpw : ∀ c ∈ pw, isPasswordChar c = true) (hpu : user = [] → pw = [])
    (hs : '@' ∉ s.takeWhile isAuthTailChar) (hs' : user = [] → findAuth s = []) :
    parseAuth url
        ((if user ≠ [] then user ++ ((if pw ≠ [] then ':' :: pw else []) ++ ['@']) else []) ++ s) =
      ({ url with
          user := if user ≠ [] then user else url.user
          password := if pw ≠ [] then pw else url.password }, s) := by
  by_cases h : user = []
  · subst h
    simp [parseAuth, hs' rfl, hpu rfl]
  · have hsep : ':' ∉ user := fun hc => absurd (hu ':' hc) (by decide)
    set q := if pw ≠ [] then ':' :: pw else [] with hq_def
    have hq : isAuthTail q = true := by
      rw [hq_def]
      split
      · exact isAuthTail_colon ‹_› hpw
      · rfl
    have hq₀ : ∀ c ∈ q.head?, c = ':' := by
      rw [hq_def]
      split <;> simp
    have hfind := findAuth_append h hu hq hq₀ hs
    have htext : user ++ q ++ ['@'] ++ s = user ++ q ++ '@' :: s := by simp
    rw [if_pos h, ← List.append_assoc]
    simp only [parseAuth, htext, hfind]
    have hlen : 1 < (user ++ q ++ ['@']).length := by
      have := List.length_pos.mpr h
      simp only [List.length_append, List.length_singleton]
      omega
    rw [← htext, removeFirst_append, if_pos hlen, List.dropLast_concat]
    by_cases hp : pw = []
    · simp [hq_def, hp, h, splitOn_single hsep]
    · have hsep' : ':' ∉ pw := fun hc => absurd (hpw ':' hc) (by decide)
      simp [hq_def, hp, h, splitOn_append_cons _ hsep, splitOn_single hsep']

theorem parseHost_text {host s : List Char} (hh : ∀ c ∈ host, isHostChar c = true)
    (hs : ∀ c ∈ s.head?, isHostChar c = false) :
    parseHost url (host ++ s) = ({ url with host := host }, s) := by
  simp only [parseHost, findHost, takeWhile_append_stop hh hs, removeFirst_append]

theorem parsePort_text {port : Int} (h₀ : 0 ≤ port) (h₁ : port < 2 ^ 63) {s : List Char}
    (hs : ∀ c ∈ s.head?, c.isDigit = false) (hs' : port = 0 → ∀ c ∈ s.head?, c ≠ ':') :
    parsePort url ((if port ≠ 0 then ':' :: itoa port else []) ++ s) =
      ({ url with port := port }, s) := by
  by_cases h : port = 0
  · subst h
    have hfind : findPort s = [] := by
      cases s with
      | nil => rfl
      | cons c t =>
        have hc := hs' rfl c rfl
        simp [findPort, hc]
    simp [parsePort, hfind]
    rfl
  · obtain ⟨hd, hv⟩ := toDigits_spec port.toNat
    have hrun := takeWhile_append_stop (isDigits_iff.mp hd).2 hs
    have hfind : findPort (':' :: Nat.toDigits 10 port.toNat ++ s) =
        ':' :: Nat.toDigits 10 port.toNat := by
      simp [findPort, hrun, (isDigits_iff.mp hd).1]
    rw [if_pos h, itoa_of_nonneg h₀]
    simp only [parsePort, hfind]
    rw [removeFirst_append,
      show ':' :: Nat.toDigits 10 port.toNat = [':'] ++ Nat.toDigits 10 port.toNat from rfl,
      removeFirst_append, atoiValue_toDigits (by omega), Int.toNat_of_nonneg h₀]

theorem parsePath_text {path s : List Char}
    (hp : path = [] ∨ (path.head? = some '/' ∧ ∀ c ∈ path, c = '/' ∨ isNameChar c = true))
    (hs : ∀ c ∈ s.head?, c ≠ '/' ∧ isNameChar c = false) :
    parsePath url (path ++ s) = ({ url with path := path }, s) := by
  rcases hp with rfl | ⟨hhead, hchars⟩
  · have hfind : findPath s = [] := by
      cases s with
      | nil => rfl
      | cons c t => simp [findPath, (hs c rfl).1]
    simp [parsePath, hfind]
  · obtain ⟨t, rfl⟩ : ∃ t, path = '/' :: t := by
      cases path with
      | nil => cases hhead
      | cons c t => exact ⟨t, by cases hhead; rfl⟩
    have hrun : (t ++ s).takeWhile (fun c => c == '/' || isNameChar c) = t := by
      refine takeWhile_append_stop (fun c hc => ?_) fun c hc => ?_
      · rcases hchars c (List.mem_cons_of_mem _ hc) with rfl | h <;> simp [*]
      · simp [(hs c hc).1, (hs c hc).2]
    simp only [parsePath, List.cons_append, findPath, hrun]
    rw [← List.cons_append, removeFirst_append]

end Steps

def addressText (url : URL) : List Char :=
  (if url.protocol ≠ [] then url.protocol ++ [':', '/', '/'] else []) ++
  (if url.user ≠ [] then
    url.user ++ (if url.password ≠ [] then ':' :: url.password else []) ++ ['@'] else []) ++
  url.host ++ (if url.port ≠ 0 then ':' :: itoa url.port else []) ++ url.path

theorem string_eq (url : URL) : url.string = addressText url ++ paramText url.param := by
  simp only [URL.string, addressText, ite_ne_nil]

/-- The fields `String` writes so that `Parse` reads them back: each in the characters of its
regular expression, a password only beside a user, a port in `[0, 2^63)`, and a path of segments
that each start with `/`. -/
structure URL.AddressWF (url : URL) : Prop where
  protocol : ∀ c ∈ url.protocol, isHostChar c = true
  user : ∀ c ∈ url.user, isNameChar c = true
  password : ∀ c ∈ url.password, isPasswordChar c = true
  password_user : url.user = [] → url.password = []
  host : ∀ c ∈ url.host, isHostChar c = true
  port_nonneg : 0 ≤ url.port
  port_lt : url.port < 2 ^ 63
  path : url.path = [] ∨ (url.path.head? = some '/' ∧ ∀ c ∈ url.path, c = '/' ∨ isNameChar c = true)

theorem mem_ite_nil {c : Char} {P : Prop} [Decidable P] {l : List Char}
    (h : c ∈ (if P then l else [])) : c ∈ l := by
  split at h
  · exact h
  · cases h

section Address

variable {u : URL} (hu : u.AddressWF)
include hu

theorem mem_itoa {c : Char} (h : c ∈ itoa u.port) : c.isDigit = true := by
  rw [itoa_of_nonneg hu.port_nonneg] at h
  exact (isDigits_iff.mp (toDigits_spec _).1).2 c h

theorem space_not_mem_addressText : ' ' ∉ addressText u := by
  intro h
  simp only [addressText, List.mem_append] at h
  rcases h with (((h | h) | h) | h) | h
  · rcases List.mem_append.mp (mem_ite_nil h) with h | h
    · exact absurd (hu.protocol _ h) (by decide)
    · simp at h
  · rcases List.mem_append.mp (mem_ite_nil h) with h | h
    · rcases List.mem_append.mp h with h | h
      · exact absurd (hu.user _ h) (by decide)
      · rcases List.mem_cons.mp (mem_ite_nil h) with h | h
        · cases h
        · exact absurd (hu.password _ h) (by decide)
    · simp at h
  · exact absurd (hu.host _ h) (by decide)
  · rcases List.mem_cons.mp (mem_ite_nil h) with h | h
    · cases h
    · exact absurd (mem_itoa hu h) (by decide)
  · rcases hu.path with h' | ⟨-, h'⟩
    · simp [h'] at h
    · rcases h' _ h with h | h
      · cases h
      · exact absurd h (by decide)

end Address

theorem trimSpaces_head {r : List Char} (hr : ∀ c ∈ r.head?, c = '?') :
    ∀ c ∈ (trimSpaces r).head?, c = '?' := by
  cases r with
  | nil => simp [trimSpaces]
  | cons c t =>
    obtain rfl := hr c rfl
    have h₁ : ('?' :: t).dropWhile (· == ' ') = '?' :: t := dropWhile_eq_self_of_head (by simp)
    rw [trimSpaces, h₁, List.reverse_cons, List.dropWhile_append]
    split <;> simp

theorem findProtocol_of_run {a b : List Char} (ha : ∀ c ∈ a, isHostChar c = true)
    (hb : ∀ c ∈ b.head?, isHostChar c = false) (hb' : ¬ [':', '/', '/'] <+: b) :
    findProtocol (a ++ b) = [] := by
  simp [findProtocol, takeWhile_append_stop ha hb, List.isPrefixOf_iff_prefix, hb']

theorem authRun_of_noAt {X r : List Char} (hX : '@' ∉ X) (hr : ∀ c ∈ r.head?, c = '?') :
    '@' ∉ (X ++ r).takeWhile isAuthTailChar ∧ findAuth (X ++ r) = [] := by
  have hr₀ : ∀ {p : Char → Bool}, p '?' = false → r.takeWhile p = [] := fun hp => by
    cases r with
    | nil => rfl
    | cons c t => rw [hr c rfl, List.takeWhile_cons_of_neg (by simp [hp])]
  have hrun : ∀ k, '@' ∉ (X.drop k ++ r).takeWhile isAuthTailChar := fun k h => by
    rcases mem_takeWhile_append h with h | h
    · exact hX (List.mem_of_mem_drop h)
    · rw [hr₀ (by decide)] at h
      cases h
  refine ⟨by simpa using hrun 0, findAuth_eq_nil ?_⟩
  have hle := length_takeWhile_append_le (a := X) (p := isNameChar) fun c hc => by
    rw [hr c hc]; decide
  rw [List.drop_append_of_le_length hle]
  exact hrun _

theorem head_port {u : URL} {t : List Char} (ht : ∀ c ∈ t.head?, c = '/' ∨ c = '?') :
    ∀ c ∈ ((if u.port ≠ 0 then ':' :: itoa u.port else []) ++ t).head?,
      c = ':' ∨ c = '/' ∨ c = '?' := by
  split
  · rintro c ⟨⟩
    exact .inl rfl
  · exact fun c hc => .inr (ht c hc)

section Rest

variable {u : URL} (hu : u.AddressWF)
include hu

theorem head_path {t : List Char} (ht : ∀ c ∈ t.head?, c = '?') :
    ∀ c ∈ (u.path ++ t).head?, c = '/' ∨ c = '?' := by
  rcases hu.path with h | ⟨h, -⟩
  · rw [h, List.nil_append]
    exact fun c hc => .inr (ht c hc)
  · rw [List.head?_append, h]
    rintro c ⟨⟩
    exact .inl rfl

theorem not_colonSlash_port {t : List Char} (ht : ∀ c ∈ t.head?, c = '/' ∨ c = '?') :
    ¬ [':', '/', '/'] <+: (if u.port ≠ 0 then ':' :: itoa u.port else []) ++ t := by
  rintro ⟨x, hx⟩
  split at hx
  · obtain ⟨d, ds, hd⟩ : ∃ d ds, itoa u.port = d :: ds := by
      rw [itoa_of_nonneg hu.port_nonneg]
      exact List.exists_cons_of_ne_nil (isDigits_iff.mp (toDigits_spec _).1).1
    have hdig := mem_itoa hu (hd ▸ List.mem_cons_self d ds)
    rw [hd] at hx
    simp only [List.cons_append, List.nil_append, List.cons.injEq] at hx
    rw [← hx.2.1] at hdig
    exact absurd hdig (by decide)
  · rw [List.nil_append] at hx
    rcases ht ':' (by rw [← hx]; rfl) with h | h <;> cases h

theorem at_not_mem_rest : '@' ∉ u.host ++ ((if u.port ≠ 0 then ':' :: itoa u.port else []) ++ u.path) := by
  intro h
  rcases List.mem_append.mp h with h | h
  · exact absurd (hu.host _ h) (by decide)
  rcases List.mem_append.mp h with h | h
  · rcases List.mem_cons.mp (mem_ite_nil h) with h | h
    · cases h
    · exact absurd (mem_itoa hu h) (by decide)
  · rcases hu.path with h' | ⟨-, h'⟩
    · simp [h'] at h
    · rcases h' _ h with h | h
      · cases h
      · exact absurd h (by decide)

theorem findProtocol_rest {t : List Char} (ht : ∀ c ∈ t.head?, c = '/' ∨ c = '?') :
    findProtocol
      ((if u.user ≠ [] then
        u.user ++ ((if u.password ≠ [] then ':' :: u.password else []) ++ ['@']) else []) ++
      (u.host ++ ((if u.port ≠ 0 then ':' :: itoa u.port else []) ++ t))) = [] := by
  split
  · next hus =>
    rw [List.append_assoc]
    refine findProtocol_of_run (fun c hc => isHostChar_of_isNameChar (hu.user c hc))
      (fun c hc => ?_) fun ⟨x, hx⟩ => ?_
    · split at hc <;> (cases hc; decide)
    · split at hx
      · next hp =>
        obtain ⟨d, t, hdt⟩ := List.exists_cons_of_ne_nil hp
        rw [hdt] at hx
        simp only [List.cons_append, List.nil_append, List.cons.injEq] at hx
        exact ne_of_isPasswordChar (hu.password d (hdt ▸ List.mem_cons_self d t)) (by simp [← hx.2.1])
      · simp at hx
  · rw [List.nil_append]
    exact findProtocol_of_run hu.host
      (fun c hc => by rcases head_port ht c hc with rfl | rfl | rfl <;> decide)
      (not_colonSlash_port hu ht)

end Rest

/-- `Parse` reads back every field `String` writes before the parameters, whatever follows from
a `?` on. -/
theorem parse_addressText {u : URL} (hu : u.AddressWF) {r : List Char}
    (hr : ∀ c ∈ r.head?, c = '?') :
    parseUrl (addressText u ++ r) = parseParam { u with param := [] } (trimSpaces r) := by
  have hr' := trimSpaces_head hr
  have hpa := head_path hu hr'
  obtain ⟨hrun, hauth⟩ := authRun_of_noAt (at_not_mem_rest hu) hr'
  simp only [List.append_assoc] at hrun hauth
  have hsp : r.head? ≠ some ' ' := fun h => absurd (hr ' ' h) (by decide)
  have htext : addressText u ++ trimSpaces r =
      (if u.protocol ≠ [] then u.protocol ++ [':', '/', '/'] else []) ++
      ((if u.user ≠ [] then
        u.user ++ ((if u.password ≠ [] then ':' :: u.password else []) ++ ['@']) else []) ++
      (u.host ++ ((if u.port ≠ 0 then ':' :: itoa u.port else []) ++ (u.path ++ trimSpaces r)))) := by
    simp only [addressText, List.append_assoc]
  simp only [parseUrl, URL.parse]
  rw [trimSpaces_append (space_not_mem_addressText hu) hsp, htext,
    parseProtocol_text _ hu.protocol fun _ => findProtocol_rest hu hpa]
  dsimp only
  rw [parseAuth_text _ hu.user hu.password hu.password_user hrun fun _ => hauth]
  dsimp only
  rw [parseHost_text _ hu.host fun c hc => by rcases head_port hpa c hc with rfl | rfl | rfl <;> decide]
  dsimp only
  rw [parsePort_text _ hu.port_nonneg hu.port_lt
    (fun c hc => by rcases hpa c hc with rfl | rfl <;> decide)
    fun _ c hc => by rcases hpa c hc with rfl | rfl <;> decide]
  dsimp only
  rw [parsePath_text _ hu.path fun c hc => by rw [hr' c hc]; decide]
  dsimp only
  congr 1
  simp only [URL.mk.injEq, ite_ne_nil, true_and]

theorem parseParam_address (url : URL) (s : List Char) :
    { parseParam url s with param := [] } = { url with param := [] } := by
  unfold parseParam
  dsimp only
  split <;> rfl

theorem findProtocol_spec (s : List Char) :
    findProtocol s = [] ∨ findProtocol s = s.takeWhile isHostChar ++ [':', '/', '/'] := by
  unfold findProtocol
  dsimp only
  split
  · exact .inr rfl
  · exact .inl rfl

theorem findAuth_spec (s : List Char) : findAuth s = [] ∨ ∃ q, isAuthTail q = true ∧
    s.takeWhile isNameChar ≠ [] ∧ findAuth s = s.takeWhile isNameChar ++ q ++ ['@'] := by
  unfold findAuth
  dsimp only
  split
  · next p hp =>
    have hmem := List.mem_filter.mp (List.mem_of_mem_getLast? hp)
    simp only [Bool.and_eq_true, beq_iff_eq] at hmem
    split
    · exact .inl rfl
    · next hne => exact .inr ⟨_, hmem.2.1, fun h => hne (List.isEmpty_iff.mpr h), rfl⟩
  · exact .inl rfl

theorem splitOn_user_tail {w q : List Char} (hw : ':' ∉ w) (hq : isAuthTail q = true) :
    ∃ segs, (w ++ q).splitOn ':' = w :: segs ∧ ∀ seg ∈ segs, ∀ c ∈ seg, isPasswordChar c = true := by
  cases q with
  | nil => exact ⟨[], by simpa using splitOn_single hw, by simp⟩
  | cons d q =>
    by_cases hd : d = ':'
    · subst hd
      have hsplit : (':' :: q).splitOn ':' = [] :: q.splitOn ':' :=
        splitOn_append_cons (a := []) q (List.not_mem_nil _)
      rw [isAuthTail, hsplit] at hq
      simp only [List.isEmpty_nil, Bool.true_and, List.all_eq_true, Bool.and_eq_true,
        Bool.not_eq_true', List.isEmpty_eq_false] at hq
      exact ⟨q.splitOn ':', splitOn_append_cons q hw, fun seg hseg => (hq seg hseg).2⟩
    · obtain ⟨x, xs, hx⟩ := List.exists_cons_of_ne_nil (List.splitOnP_ne_nil (· == ':') q)
      have hsplit : (d :: q).splitOn ':' = (d :: x) :: xs := by
        rw [List.splitOn, List.splitOnP_cons, if_neg (by simpa using hd), hx]
        rfl
      rw [isAuthTail, hsplit] at hq
      simp at hq

theorem stripSign_of_isDigits {ds : List Char} (h : isDigits ds = true) :
    stripSign ds = (false, ds) := by
  obtain ⟨hne, hall⟩ := isDigits_iff.mp h
  obtain ⟨c, cs, rfl⟩ := List.exists_cons_of_ne_nil hne
  have hc := hall c (List.mem_cons_self c cs)
  unfold stripSign
  split <;> simp_all

theorem port_range (s : List Char) :
    0 ≤ atoiValue (removeFirst (findPort s) [':']) ∧
      atoiValue (removeFirst (findPort s) [':']) < 2 ^ 63 := by
  have hcases : findPort s = [] ∨ ∃ ds, isDigits ds = true ∧ findPort s = ':' :: ds := by
    unfold findPort
    split
    · split
      · exact .inl rfl
      · next t hne =>
        refine .inr ⟨_, isDigits_iff.mpr ⟨by simpa using hne, fun c hc => ?_⟩, rfl⟩
        exact List.mem_takeWhile_imp hc
    · exact .inl rfl
  rcases hcases with h | ⟨ds, hds, h⟩
  · rw [h]
    decide
  · rw [h, show ':' :: ds = [':'] ++ ds from rfl, removeFirst_append, atoiValue,
      atoi_of_isDigits hds]
    split
    · split at ‹_ = _›
      · next hv heq => cases heq; omega
      · cases ‹_ = _›
    · rw [stripSign_of_isDigits hds]
      simp [hds]

namespace URL.AddressWF

variable {url : URL}

theorem empty : ({} : URL).AddressWF :=
  ⟨by simp, by simp, by simp, fun _ => rfl, by simp, le_refl 0, by decide, .inl rfl⟩

theorem parseProtocol (h : url.AddressWF) (s : List Char) : (parseProtocol url s).1.AddressWF := by
  refine { h with protocol := fun c hc => ?_ }
  simp only [Matcha.Util.parseProtocol] at hc
  rcases findProtocol_spec s with hf | hf <;> rw [hf] at hc
  · simp at hc
  · simp only [List.length_append, List.length_cons, List.length_nil, Nat.reduceAdd,
      Nat.le_add_left, if_true, Nat.add_sub_cancel, List.take_left'] at hc
    exact List.mem_takeWhile_imp hc

theorem parseAuth (h : url.AddressWF) (s : List Char) : (parseAuth url s).1.AddressWF := by
  simp only [Matcha.Util.parseAuth]
  rcases findAuth_spec s with hf | ⟨q, hq, hne, hf⟩
  · rw [hf]
    exact h
  · have hw : ':' ∉ s.takeWhile isNameChar := fun hc =>
      absurd (List.mem_takeWhile_imp hc) (by decide)
    obtain ⟨segs, hsplit, hsegs⟩ := splitOn_user_tail hw hq
    have hlen : 1 < (s.takeWhile isNameChar ++ q ++ ['@']).length := by
      have := List.length_pos.mpr hne
      simp only [List.length_append, List.length_singleton]
      omega
    rw [hf, if_pos hlen, List.dropLast_concat, hsplit]
    split
    · next user password rest heq =>
      obtain ⟨rfl, rfl⟩ := List.cons.inj heq
      exact { h with
        user := fun c hc => List.mem_takeWhile_imp hc
        password := hsegs _ (List.mem_cons_self _ _)
        password_user := fun hu => absurd hu hne }
    · next user heq =>
      obtain ⟨rfl, -⟩ := List.cons.inj heq
      exact { h with
        user := fun c hc => List.mem_takeWhile_imp hc
        password_user := fun hu => absurd hu hne }
    · exact h

theorem parseHost (h : url.AddressWF) (s : List Char) : (parseHost url s).1.AddressWF :=
  { h with host := fun _ hc => List.mem_takeWhile_imp hc }

theorem parsePort (h : url.AddressWF) (s : List Char) : (parsePort url s).1.AddressWF :=
  { h with port_nonneg := (port_range s).1, port_lt := (port_range s).2 }

theorem parsePath (h : url.AddressWF) (s : List Char) : (parsePath url s).1.AddressWF := by
  refine { h with path := ?_ }
  show findPath s = [] ∨ _
  unfold findPath
  split
  · refine .inr ⟨rfl, fun c hc => ?_⟩
    rcases List.mem_cons.mp hc with rfl | hc
    · exact .inl rfl
    · have := List.mem_takeWhile_imp hc
      simp only [Bool.or_eq_true, beq_iff_eq] at this
      exact this
  · exact .inl rfl

theorem parseParam (h : url.AddressWF) (s : List Char) : (parseParam url s).AddressWF := by
  unfold Matcha.Util.parseParam
  dsimp only
  split
  · exact { h with }
  · exact h

end URL.AddressWF

/-- Whatever the input, the fields `Parse` fills are ones that `String` writes back. -/
theorem parseUrl_addressWF (src : List Char) : (parseUrl src).AddressWF :=
  .parseParam (.parsePath (.parsePort (.parseHost (.parseAuth (.parseProtocol .empty _) _) _) _) _) _

theorem paramText_head (ps : List (List Char × List Char)) : ∀ c ∈ (paramText ps).head?, c = '?' := by
  cases ps <;> simp [paramText]

theorem splitOn_paramEntry {e : List Char × List Char} (hk : '=' ∉ e.1) (hv : '=' ∉ e.2) :
    (paramEntry e).splitOn '=' = [e.1, e.2] := by
  rw [paramEntry, splitOn_append_cons _ hk, splitOn_single hv]

theorem mapSet_fresh {m : List (List Char × List Char)} {k : List Char} (v : List Char)
    (hk : k ∉ m.map Prod.fst) : mapSet m k v = m ++ [(k, v)] := by
  rw [mapSet, List.filter_eq_self.mpr]
  intro e he
  simp only [bne_iff_ne, ne_eq]
  rintro rfl
  exact hk (List.mem_map_of_mem Prod.fst he)

theorem setParams_paramEntry : ∀ {ps m : List (List Char × List Char)},
    (∀ e ∈ ps, '=' ∉ e.1 ∧ '=' ∉ e.2) → (m.map Prod.fst ++ ps.map Prod.fst).Nodup →
    setParams m (ps.map paramEntry) = m ++ ps
  | [], m, _, _ => by simp [setParams]
  | e :: es, m, hsep, hnd => by
    have hstep : setParams m ((e :: es).map paramEntry) =
        setParams (mapSet m e.1 e.2) (es.map paramEntry) := by
      simp only [setParams, List.map_cons, List.foldl_cons,
        splitOn_paramEntry (hsep e (.head _)).1 (hsep e (.head _)).2]
    have hfresh : e.1 ∉ m.map Prod.fst := fun h =>
      List.disjoint_of_nodup_append hnd h (List.mem_map_of_mem _ (.head _))
    rw [hstep, mapSet_fresh _ hfresh, setParams_paramEntry (fun x hx => hsep x (.tail _ hx))
      (by simpa using hnd)]
    simp

theorem paramText_getLast? {ps : List (List Char × List Char)}
    (h : ∀ k v, ps.getLast? = some (k, v) → v.getLast? ≠ some ' ') :
    (paramText ps).getLast? ≠ some ' ' := by
  cases ps with
  | nil => simp [paramText]
  | cons e es =>
    rcases List.eq_nil_or_concat es with rfl | ⟨es', l, rfl⟩
    · have hv := h e.1 e.2 rfl
      cases hl : e.2.getLast? <;>
        simp_all [paramText, join, paramEntry, List.getLast?_append_cons, List.getLast?_cons]
    · have hv := h l.1 l.2 (by rw [List.concat_eq_append]; exact List.getLast?_concat (e :: es'))
      cases hl : l.2.getLast? <;>
        simp_all [paramText, join, paramEntry, List.getLast?_append_cons, List.getLast?_cons,
          ← List.append_assoc]

theorem findParam_paramText {k v : List Char} {es : List (List Char × List Char)}
    (hk : k ≠ []) (hkc : ∀ c ∈ k, isNameChar c = true) (hv : v ≠ [] ∨ es ≠ []) :
    findParam (paramText ((k, v) :: es)) = paramText ((k, v) :: es) := by
  have hstop : ∀ c ∈ ('=' :: (v ++ (es.map paramEntry).flatMap ('&' :: ·))).head?,
      isNameChar c = false := by
    intro c hc
    cases hc
    decide
  have hrun : (k ++ '=' :: (v ++ (es.map paramEntry).flatMap ('&' :: ·))).takeWhile isNameChar = k :=
    takeWhile_append_stop hkc hstop
  have hne : v ++ (es.map paramEntry).flatMap ('&' :: ·) ≠ [] := by
    rcases hv with hv | hv
    · simp [hv]
    · obtain ⟨x, xs, rfl⟩ := List.exists_cons_of_ne_nil hv
      simp
  obtain ⟨c, cs, hcs⟩ := List.exists_cons_of_ne_nil hne
  rw [hcs] at hrun
  simp only [paramText, join, paramEntry, List.append_assoc, List.cons_append, hcs]
  simp only [findParam, hrun, List.drop_left]
  simp [hk]

/-- The parameters `String` writes so that `Parse` reads them back: keys once each, no `&` or `=`
in a key or value, a first entry that `\?[\w-]+=.+` matches, and no space ending the text. -/
structure URL.WellFormed (url : URL) extends url.AddressWF : Prop where
  keys_nodup : (url.param.map Prod.fst).Nodup
  separators : ∀ e ∈ url.param, '&' ∉ e.1 ∧ '=' ∉ e.1 ∧ '&' ∉ e.2 ∧ '=' ∉ e.2
  first_key : ∀ k v es, url.param = (k, v) :: es →
    k ≠ [] ∧ (∀ c ∈ k, isNameChar c = true) ∧ (v ≠ [] ∨ es ≠ [])
  last_value : ∀ k v, url.param.getLast? = some (k, v) → v.getLast? ≠ some ' '

theorem parseParam_paramText {u : URL} (hu : u.WellFormed) :
    parseParam { u with param := [] } (trimSpaces (paramText u.param)) = u := by
  rw [trimSpaces_eq_self (by simpa using fun h => paramText_head u.param ' ' h)
    (paramText_getLast? hu.last_value)]
  obtain ⟨⟨k, v⟩, es, hps⟩ | hps : (∃ e es, u.param = e :: es) ∨ u.param = [] := by
    cases u.param <;> simp
  · obtain ⟨hk, hkc, hv⟩ := hu.first_key k v es hps
    have hsep : ∀ p ∈ es.map paramEntry, '&' ∉ p := by
      simp only [List.mem_map]
      rintro _ ⟨e, he, rfl⟩ hmem
      have := hu.separators e (hps ▸ .tail _ he)
      simp_all [paramEntry]
    have hsep₀ : '&' ∉ paramEntry (k, v) := by
      have := hu.separators (k, v) (hps ▸ .head _)
      simp_all [paramEntry]
    have hparams := setParams_paramEntry (m := []) (fun e he => ⟨(hu.separators e he).2.1,
      (hu.separators e he).2.2.2⟩) (by simpa using hu.keys_nodup)
    unfold parseParam
    simp only [hps, findParam_paramText hk hkc hv]
    simp only [paramText, List.length_cons, Nat.zero_lt_succ, if_true, List.drop_one,
      List.tail_cons, splitOn_join hsep hsep₀, ← List.map_cons, hparams, List.nil_append, ← hps]
  · cases u
    simp_all [parseParam, paramText, findParam]

/-- `Parse` reads back every URL that `String` writes from well-formed fields. -/
theorem parseUrl_string {u : URL} (hu : u.WellFormed) : parseUrl u.string = u := by
  rw [string_eq, parse_addressText hu.toAddressWF (paramText_head u.param), parseParam_paramText hu]

theorem parseUrl_string_redis :
    let u : URL :=
      { protocol := "redis".toList, user := "app".toList, password := "s3cr@t".toList,
        host := "10.0.0.1".toList, port := 6379, path := "/db/0".toList,
        param := [("timeout".toList, "5".toList), ("pool".toList, [])] }
    u.WellFormed ∧ parseUrl u.string = u := by
  intro u
  have hu : u.WellFormed :=
    { protocol := by decide, user := by decide, password := by decide,
      password_user := by decide, host := by decide, port_nonneg := by decide,
      port_lt := by decide, path := by decide, keys_nodup := by decide, separators := by decide,
      first_key := by
        intro k v es h
        obtain ⟨⟨rfl, rfl⟩, rfl⟩ := (List.cons_eq_cons.mp h).imp_left Prod.mk.inj
        decide,
      last_value := by
        intro k v h
        obtain ⟨rfl, rfl⟩ := Prod.mk.inj (Option.some.inj h).symm
        decide }
  exact ⟨hu, parseUrl_string hu⟩

/-- A URL that `Parse` built comes back with the same protocol, user, password, host, port and
path after `String` and `Parse` again, whatever text it was parsed from. -/
theorem parseUrl_string_parseUrl (src : List Char) :
    { parseUrl (parseUrl src).string with param := [] } = { parseUrl src with param := [] } := by
  rw [string_eq, parse_addressText (parseUrl_addressWF src) (paramText_head _), parseParam_address]

example : parseUrl "redis://app:s3cr@t@10.0.0.1:6379/db/0?timeout=5".toList =
    { protocol := "redis".toList, user := "app".toList, password := "s3cr@t".toList,
      host := "10.0.0.1".toList, port := 6379, path := "/db/0".toList,
      param := [("timeout".toList, "5".toList)] } := by decide

end Matcha.Util
