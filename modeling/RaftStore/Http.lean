import RaftStore.Lib.Percent
import RaftStore.Store

/-!
# URLs and the multiplexer

What `net/url` and `net/http` do between the key in a client's URL and
the key in the server's handler, as their documentation has it. The
client parses the URL: `#` starts the fragment, `?` the query, and `%XX`
stands for a byte. It writes the path back in escaped form, the server
parses that, and `ServeMux` sends the request to a handler or redirects
it to a cleaner path. Only what stands behind the authority is kept: a
key comes after the first slash behind it.

The path survives the wire (`Url.arrives_path`), so whether a key does is
decided by the parsing on the client and by the multiplexer.
`requestKey_iff` says which keys do.
-/

namespace RaftStore

open Percent

/-! ## `net/url` -/

structure Url where
  path : Bytes
  rawPath : Bytes
  /-- `RawQuery`, if there was a `?`. -/
  query : Option Bytes
  deriving DecidableEq

/-- `shouldEscape` in a path: letters, digits and `-_.~$&+,/:;=@` stay. -/
def shouldEscape (c : UInt8) : Bool :=
  !((97 ≤ c && c ≤ 122) || (65 ≤ c && c ≤ 90) || (48 ≤ c && c ≤ 57)
    || [45, 95, 46, 126, 36, 38, 43, 44, 47, 58, 59, 61, 64].contains c)

/-- `validEncoded` also lets `!'()*[]%` pass. -/
def validEncoded (c : UInt8) : Bool :=
  [33, 39, 40, 41, 42, 91, 93, 37].contains c || !shouldEscape c

def isControl (c : UInt8) : Bool := c < 32 || c = 127

/-- `strings.Cut`, with `none` when the separator is not there. -/
def cut (sep : UInt8) : Bytes → Bytes × Option Bytes
  | [] => ([], none)
  | c :: rest =>
      if c = sep then ([], some rest)
      else (c :: (cut sep rest).1, (cut sep rest).2)

/-- `setPath`: `RawPath` is kept only when it is not the default
escaping. -/
def setPath (p : Bytes) (query : Option Bytes) : Option Url :=
  (unescape p).map fun path =>
    ⟨path, if escape shouldEscape path = p then [] else p, query⟩

/-- `url.ParseRequestURI` on an absolute path. -/
def parseRequestUri (s : Bytes) : Option Url :=
  if s.any isControl then none else setPath (cut 63 s).1 (cut 63 s).2

/-- `url.Parse` behind the authority. -/
def parseUrl (s : Bytes) : Option Url :=
  match parseRequestUri (cut 35 s).1 with
  | some u =>
      if (unescape ((cut 35 s).2.getD [])).isSome then some u else none
  | none => none

namespace Url

def escapedPath (u : Url) : Bytes :=
  if u.rawPath ≠ [] ∧ u.rawPath.all validEncoded
      ∧ unescape u.rawPath = some u.path then
    u.rawPath
  else if u.path = [42] then [42]
  else escape shouldEscape u.path

def requestUri (u : Url) : Bytes :=
  (if u.escapedPath = [] then [47] else u.escapedPath)
    ++ (match u.query with
      | none => []
      | some query => 63 :: query)

/-- The URL of the request as the server has it. The request line is cut
at its first two blanks; one more of them leaves a malformed version. -/
def arrives (u : Url) : Option Url :=
  if 32 ∈ u.requestUri then none else parseRequestUri u.requestUri

end Url

/-! ## `ServeMux` -/

/-- `strings.Split` at the slashes. -/
def segments : Bytes → List Bytes
  | [] => [[]]
  | c :: rest =>
      if c = 47 then [] :: segments rest
      else
        match segments rest with
        | [] => [[c]]
        | s :: ss => (c :: s) :: ss

/-- `path.Clean` of a rooted path. -/
def clean (p : Bytes) : Bytes :=
  let out := (segments p).foldl (fun out s =>
    if s = [] ∨ s = [46] then out
    else if s = [46, 46] then out.dropLast
    else out ++ [s]) []
  47 :: [47].intercalate out

def cleanPath (p : Bytes) : Bytes :=
  if p = [] then [47]
  else
    let p := if p.head? = some 47 then p else 47 :: p
    let np := clean p
    if p.getLast? = some 47 ∧ np ≠ [47] then np ++ [47] else np

/-- The pattern `/v1/keys/`. -/
def keysPath : Bytes := [47, 118, 49, 47, 107, 101, 121, 115, 47]

/-- The pattern `/healthz`. -/
def healthPath : Bytes := [47, 104, 101, 97, 108, 116, 104, 122]

inductive Route where
  | redirect (u : Url)
  | health
  | key
  | notFound
  deriving DecidableEq

/-- `findHandler` for the two patterns. A path that lacks only the last
slash of a pattern is redirected to it, and one that is not clean to its
clean form. -/
def Url.route (u : Url) : Route :=
  let path := cleanPath u.escapedPath
  if path ++ [47] = keysPath then
    .redirect ⟨cleanPath u.path ++ [47], [], u.query.filter (· ≠ [])⟩
  else if path ≠ u.escapedPath then
    .redirect ⟨path, [], u.query.filter (· ≠ [])⟩
  else if path = healthPath then .health
  else if keysPath.isPrefixOf path then .key
  else .notFound

/-- `strings.TrimPrefix` of `handleKey`. -/
def trimKeys (path : Bytes) : Bytes :=
  if keysPath.isPrefixOf path then path.drop keysPath.length else path

/-- The key with which a request for `key` gets to `handleKey`, if it gets
there without a redirect. -/
def requestKey (key : Bytes) : Option Bytes :=
  match parseUrl (keysPath ++ key) with
  | none => none
  | some u =>
      match u.arrives with
      | none => none
      | some u => if u.route = .key then some (trimKeys u.path) else none

/-! ## Cutting -/

theorem cut_append {sep : UInt8} {a : Bytes} (h : sep ∉ a) (b : Bytes) :
    cut sep (a ++ b) = (a ++ (cut sep b).1, (cut sep b).2) := by
  induction a with
  | nil => rfl
  | cons c a ih =>
      rw [List.mem_cons, not_or] at h
      rw [List.cons_append, cut, if_neg (Ne.symm h.1), ih h.2]
      rfl

theorem cut_of_not_mem {sep : UInt8} {s : Bytes} (h : sep ∉ s) :
    cut sep s = (s, none) := by
  have happ := cut_append h []
  rwa [List.append_nil, show cut sep [] = ([], none) from rfl,
    List.append_nil] at happ

theorem prefix_cut (sep : UInt8) (s : Bytes) : (cut sep s).1 <+: s := by
  induction s with
  | nil => exact List.nil_prefix
  | cons c s ih =>
      rw [cut]
      split
      · exact List.nil_prefix
      · exact List.cons_prefix_cons.mpr ⟨rfl, ih⟩

theorem not_mem_of_cut {sep : UInt8} {s : Bytes} (h : (cut sep s).1 = s) :
    sep ∉ s := by
  induction s with
  | nil => exact List.not_mem_nil
  | cons c s ih =>
      rw [cut] at h
      split at h
      · cases h
      · rename_i hc
        rw [List.mem_cons, not_or]
        exact ⟨Ne.symm hc, ih (List.cons.inj h).2⟩

/-! ## The wire -/

theorem shouldEscape_percent : shouldEscape 37 = true := by decide

theorem validEncoded_of_unescaped {c : UInt8} (h : shouldEscape c = false) :
    validEncoded c = true := by
  rw [validEncoded, h]
  exact Bool.or_true _

theorem validEncoded_of_hex (c : UInt8) :
    (unhex c).isSome = true → validEncoded c = true :=
  forall_byte (P := fun c => (unhex c).isSome = true → validEncoded c = true)
    (by decide +kernel) c

/-- Nothing in an encoded path ends it. -/
theorem validEncoded_safe (c : UInt8) : validEncoded c = true →
    c ≠ 63 ∧ c ≠ 32 ∧ isControl c = false :=
  forall_byte (P := fun c => validEncoded c = true →
    c ≠ 63 ∧ c ≠ 32 ∧ isControl c = false) (by decide +kernel) c

namespace Url

theorem escapedPath_default {path : Bytes} {query : Option Bytes}
    (h : path ≠ [42]) :
    escapedPath ⟨path, [], query⟩ = escape shouldEscape path := by
  rw [escapedPath, if_neg (fun hno => hno.1 rfl), if_neg h]

theorem escapedPath_raw {path raw : Bytes} {query : Option Bytes}
    (hne : raw ≠ []) (hvalid : ∀ c ∈ raw, validEncoded c = true)
    (hpath : unescape raw = some path) :
    escapedPath ⟨path, raw, query⟩ = raw :=
  if_pos ⟨hne, List.all_eq_true.mpr hvalid, hpath⟩

theorem unescape_escapedPath (u : Url) :
    unescape u.escapedPath = some u.path := by
  unfold escapedPath
  split
  · rename_i h
    exact h.2.2
  · split
    · rename_i h
      rw [h]
      rfl
    · exact unescape_escape shouldEscape_percent _

theorem escapedPath_valid (u : Url) {c : UInt8} (h : c ∈ u.escapedPath) :
    validEncoded c = true := by
  unfold escapedPath at h
  split at h
  · rename_i hraw
    exact List.all_eq_true.mp hraw.2.1 c h
  · split at h
    · rw [List.mem_singleton.mp h]
      decide
    · rcases mem_escape h with rfl | hhex | ⟨-, hkeep⟩
      · decide
      · exact validEncoded_of_hex c hhex
      · exact validEncoded_of_unescaped hkeep

theorem escapedPath_ne_nil {u : Url} (h : u.path ≠ []) : u.escapedPath ≠ [] := by
  intro hnil
  have hun := u.unescape_escapedPath
  rw [hnil] at hun
  exact h (Option.some.inj hun).symm

/-- What the server makes of the path. -/
theorem setPath_escapedPath (u : Url) (query : Option Bytes) :
    setPath u.escapedPath query = some ⟨u.path,
      if escape shouldEscape u.path = u.escapedPath then [] else u.escapedPath,
      query⟩ := by
  rw [setPath, u.unescape_escapedPath]
  rfl

theorem cut_requestUri {u : Url} (h : u.path ≠ []) :
    cut 63 u.requestUri = (u.escapedPath, u.query) := by
  have hno : 63 ∉ u.escapedPath := fun hmem =>
    (validEncoded_safe _ (u.escapedPath_valid hmem)).1 rfl
  rw [requestUri, if_neg (escapedPath_ne_nil h), cut_append hno]
  cases u.query with
  | none => exact congrArg (·, none) (List.append_nil _)
  | some query => exact congrArg (·, some query) (List.append_nil _)

/-- The path survives the wire. -/
theorem arrives_path {u u' : Url} (hroot : u.path.head? = some 47)
    (h : u.arrives = some u') :
    u'.path = u.path ∧ u'.escapedPath = u.escapedPath := by
  have hne : u.path ≠ [] := by
    intro hnil
    rw [hnil] at hroot
    cases hroot
  have hstar : u.path ≠ [42] := by
    intro hstar
    rw [hstar] at hroot
    cases hroot
  unfold arrives at h
  split at h
  · cases h
  · unfold parseRequestUri at h
    split at h
    · cases h
    · rw [cut_requestUri hne, setPath_escapedPath] at h
      obtain rfl := Option.some.inj h
      refine ⟨rfl, ?_⟩
      by_cases hdefault : escape shouldEscape u.path = u.escapedPath
      · rw [if_pos hdefault, escapedPath_default hstar, hdefault]
      · rw [if_neg hdefault]
        exact escapedPath_raw (escapedPath_ne_nil hne)
          (fun c hc => u.escapedPath_valid hc) u.unescape_escapedPath

theorem arrives_isSome {u : Url} (hne : u.path ≠ []) (hquery : u.query = none) :
    ∃ u', u.arrives = some u' := by
  have huri : u.requestUri = u.escapedPath := by
    rw [requestUri, if_neg (escapedPath_ne_nil hne), hquery]
    exact List.append_nil _
  have hblank : 32 ∉ u.requestUri := by
    rw [huri]
    intro hmem
    exact (validEncoded_safe _ (u.escapedPath_valid hmem)).2.1 rfl
  have hcontrol : u.requestUri.any isControl = false := by
    rw [huri, List.any_eq_false]
    intro c hc
    rw [(validEncoded_safe c (u.escapedPath_valid hc)).2.2]
    decide
  rw [arrives, if_neg hblank, parseRequestUri, hcontrol,
    if_neg Bool.false_ne_true, cut_requestUri hne, setPath_escapedPath]
  exact ⟨_, rfl⟩

end Url

/-! ## Keys that arrive -/

/-- A key that means itself in a URL. -/
structure Plain (key : Bytes) : Prop where
  bytes : ∀ c ∈ key, c ≠ 63 ∧ c ≠ 35 ∧ c ≠ 37 ∧ isControl c = false
  dot : key ≠ [46]
  dots : key ≠ [46, 46]

instance (key : Bytes) : Decidable (Plain key) :=
  have : Decidable
      (∀ c ∈ key, c ≠ 63 ∧ c ≠ 35 ∧ c ≠ 37 ∧ isControl c = false) :=
    List.decidableBAll _ _
  decidable_of_iff ((∀ c ∈ key, c ≠ 63 ∧ c ≠ 35 ∧ c ≠ 37 ∧ isControl c = false)
    ∧ key ≠ [46] ∧ key ≠ [46, 46])
    ⟨fun h => ⟨h.1, h.2.1, h.2.2⟩, fun h => ⟨h.bytes, h.dot, h.dots⟩⟩

theorem keysPath_bytes : ∀ c ∈ keysPath,
    c ≠ 63 ∧ c ≠ 35 ∧ c ≠ 37 ∧ isControl c = false := by
  decide +kernel

variable {key : Bytes}

/-- The part of the key that ends up in the path, still escaped. -/
def keyPart (key : Bytes) : Bytes := (cut 63 (cut 35 key).1).1

theorem prefix_keyPart (key : Bytes) : keyPart key <+: key :=
  (prefix_cut 63 _).trans (prefix_cut 35 key)

/-- A key that goes into the path whole has neither `?` nor `#`. -/
theorem keyPart_eq_self (h : keyPart key = key) : 63 ∉ key ∧ 35 ∉ key := by
  have hcut : (cut 35 key).1 = key := by
    refine (prefix_cut 35 key).eq_of_length_le ?_
    have hlen := (prefix_cut 63 (cut 35 key).1).length_le
    rwa [show (cut 63 (cut 35 key).1).1 = key from h] at hlen
  refine ⟨not_mem_of_cut ?_, not_mem_of_cut hcut⟩
  unfold keyPart at h
  rwa [hcut] at h

/-- The client's side: the path is `/v1/keys/` and what the key decodes
to. -/
theorem parseUrl_keys {u : Url} (h : parseUrl (keysPath ++ key) = some u) :
    ∃ k, unescape (keyPart key) = some k ∧ u.path = keysPath ++ k
      ∧ (cut 35 key).1.any isControl = false := by
  have h35 : (35 : UInt8) ∉ keysPath := by decide
  have h63 : (63 : UInt8) ∉ keysPath := by decide
  have h37 : (37 : UInt8) ∉ keysPath := by decide
  rw [parseUrl, cut_append h35] at h
  split at h
  · rename_i u' hparse
    split at h
    · obtain rfl := Option.some.inj h
      rw [parseRequestUri, List.any_append, cut_append h63] at hparse
      split at hparse
      · cases hparse
      · rename_i hctl
        obtain ⟨path, hpath, rfl⟩ := Option.map_eq_some_iff.mp hparse
        rw [unescape_append h37] at hpath
        obtain ⟨k, hk, rfl⟩ := Option.map_eq_some_iff.mp hpath
        rw [Bool.not_eq_true, Bool.or_eq_false_iff] at hctl
        exact ⟨k, hk, rfl, hctl.2⟩
    · cases h
  · cases h

theorem parseUrl_plain (h : Plain key) :
    ∃ raw, parseUrl (keysPath ++ key) = some ⟨keysPath ++ key, raw, none⟩
      ∧ (raw = [] ∨ raw = keysPath ++ key) := by
  have hbytes : ∀ c ∈ keysPath ++ key,
      c ≠ 63 ∧ c ≠ 35 ∧ c ≠ 37 ∧ isControl c = false := by
    intro c hc
    rcases List.mem_append.mp hc with hc | hc
    · exact keysPath_bytes c hc
    · exact h.bytes c hc
  have hctl : (keysPath ++ key).any isControl = false := by
    refine List.any_eq_false.mpr fun c hc => ?_
    rw [(hbytes c hc).2.2.2]
    exact Bool.false_ne_true
  rw [parseUrl, cut_of_not_mem fun hmem => (hbytes _ hmem).2.1 rfl]
  dsimp only
  rw [parseRequestUri, hctl, if_neg Bool.false_ne_true,
    cut_of_not_mem fun hmem => (hbytes _ hmem).1 rfl, setPath,
    unescape_self fun hmem => (hbytes _ hmem).2.2.1 rfl]
  refine ⟨_, rfl, ?_⟩
  split
  · exact .inl rfl
  · exact .inr rfl

theorem trimKeys_append (k : Bytes) : trimKeys (keysPath ++ k) = k := by
  rw [trimKeys, if_pos (List.isPrefixOf_iff_prefix.mpr (List.prefix_append ..))]
  exact List.drop_left

/-! ## Clean paths -/

theorem segments_of_no_slash {s : Bytes} (h : 47 ∉ s) : segments s = [s] := by
  induction s with
  | nil => rfl
  | cons c s ih =>
      rw [List.mem_cons, not_or] at h
      rw [segments, if_neg (Ne.symm h.1), ih h.2]

theorem cleanPath_keys {e : Bytes} (hslash : 47 ∉ e) (hne : e ≠ [])
    (hdot : e ≠ [46]) (hdots : e ≠ [46, 46]) :
    cleanPath (keysPath ++ e) = keysPath ++ e := by
  have hseg : segments (keysPath ++ e)
      = [[], [118, 49], [107, 101, 121, 115]] ++ segments e := rfl
  have hclean : clean (keysPath ++ e) = keysPath ++ e := by
    rw [clean, hseg, segments_of_no_slash hslash]
    simp [hne, hdot, hdots, keysPath, List.intercalate]
  have hlast : (keysPath ++ e).getLast? ≠ some 47 := by
    rw [List.getLast?_append_of_ne_nil _ hne]
    intro hlast
    exact hslash (List.mem_of_getLast? hlast)
  have hhead : (keysPath ++ e).head? = some 47 := rfl
  rw [cleanPath, if_neg (by simp [keysPath])]
  dsimp only
  rw [if_pos hhead, hclean, if_neg (fun hno => hlast hno.1)]

theorem route_keys {u : Url} {e : Bytes} (he : u.escapedPath = keysPath ++ e)
    (hslash : 47 ∉ e) (hne : e ≠ []) (hdot : e ≠ [46]) (hdots : e ≠ [46, 46]) :
    u.route = .key := by
  have hprefix : keysPath.isPrefixOf (keysPath ++ e) = true :=
    List.isPrefixOf_iff_prefix.mpr (List.prefix_append ..)
  have hlong : keysPath ++ e ++ [47] ≠ keysPath := by
    intro heq
    have := congrArg List.length heq
    simp at this
  have hhealth : keysPath ++ e ≠ healthPath := by
    simp [keysPath, healthPath]
  unfold Url.route
  rw [he]
  dsimp only
  rw [cleanPath_keys hslash hne hdot hdots, if_neg hlong,
    if_neg (not_not_intro rfl), if_neg hhealth, if_pos hprefix]

/-- The key in the escaped path: as it is, or escaped. -/
theorem escapedPath_keys {raw : Bytes} (query : Option Bytes) (h : Plain key)
    (hslash : 47 ∉ key) (hraw : raw = [] ∨ raw = keysPath ++ key) :
    ∃ e, Url.escapedPath ⟨keysPath ++ key, raw, query⟩ = keysPath ++ e
      ∧ unescape e = some key ∧ 47 ∉ e := by
  have h37 : 37 ∉ key := fun hmem => (h.bytes _ hmem).2.2.1 rfl
  have hpath : keysPath ++ key ≠ [42] := by simp [keysPath]
  by_cases hvalid : raw ≠ [] ∧ raw.all validEncoded
      ∧ unescape raw = some (keysPath ++ key)
  · rw [Url.escapedPath, if_pos hvalid]
    rcases hraw with rfl | rfl
    · exact absurd rfl hvalid.1
    · exact ⟨key, rfl, unescape_self h37, hslash⟩
  · rw [Url.escapedPath, if_neg hvalid, if_neg hpath]
    refine ⟨escape shouldEscape key, ?_, unescape_escape shouldEscape_percent _, ?_⟩
    · rw [escape_append]
      rfl
    · intro hmem
      rcases mem_escape hmem with heq | hhex | ⟨hmem, -⟩
      · cases heq
      · revert hhex
        decide
      · exact hslash hmem

/-! ## Which keys arrive -/

/-- The request for a plain key gets to `handleKey` under that key. -/
theorem arrives_plain (h : Plain key) (hne : key ≠ []) (hslash : 47 ∉ key) :
    ∃ u u', parseUrl (keysPath ++ key) = some u ∧ u.arrives = some u'
      ∧ u'.route = .key ∧ u'.path = keysPath ++ key := by
  obtain ⟨raw, hparse, hraw⟩ := parseUrl_plain h
  obtain ⟨u', hu'⟩ := Url.arrives_isSome
    (u := ⟨keysPath ++ key, raw, none⟩) (by simp [keysPath]) rfl
  obtain ⟨hpath, hescaped⟩ := Url.arrives_path rfl hu'
  obtain ⟨e, he, hdecode, hslash'⟩ :=
    escapedPath_keys none h hslash hraw
  have hself : ∀ x : Bytes, 37 ∉ x → x ≠ key → e ≠ x := by
    rintro x hx hne' rfl
    exact hne' (Option.some.inj ((unescape_self hx).symm.trans hdecode))
  exact ⟨_, u', hparse, hu', route_keys (hescaped.trans he) hslash'
    (hself [] (by simp) hne.symm) (hself _ (by decide) h.dot.symm)
    (hself _ (by decide) h.dots.symm), hpath⟩

/-- A key that decodes to itself is plain, dots apart. -/
theorem plain_of_parse (hk : unescape (keyPart key) = some key)
    (hctl : (cut 35 key).1.any isControl = false) (hdot : key ≠ [46])
    (hdots : key ≠ [46, 46]) : Plain key := by
  have hpart : keyPart key = key := by
    have hlen := (unescape_length hk).1
    exact (prefix_keyPart key).eq_of_length_le hlen
  obtain ⟨h63, h35⟩ := keyPart_eq_self hpart
  rw [hpart] at hk
  have h37 := unescape_eq_self hk
  rw [cut_of_not_mem h35] at hctl
  refine ⟨?_, hdot, hdots⟩
  intro c hc
  refine ⟨?_, ?_, ?_, ?_⟩
  · rintro rfl
    exact h63 hc
  · rintro rfl
    exact h35 hc
  · rintro rfl
    exact h37 hc
  · exact eq_false_of_ne_true (List.any_eq_false.mp hctl c hc)

theorem requestKey_iff (hne : key ≠ []) (hslash : 47 ∉ key) :
    requestKey key = some key ↔ Plain key := by
  constructor
  · intro h
    have hdot : key ≠ [46] := by
      rintro rfl
      exact absurd h (by decide)
    have hdots : key ≠ [46, 46] := by
      rintro rfl
      exact absurd h (by decide)
    unfold requestKey at h
    split at h
    · cases h
    · rename_i u hparse
      split at h
      · cases h
      · rename_i u' harrives
        split at h
        · obtain ⟨k, hk, hpath, hctl⟩ := parseUrl_keys hparse
          have hroot : u.path.head? = some 47 := by
            rw [hpath]
            rfl
          rw [(Url.arrives_path hroot harrives).1, hpath, trimKeys_append] at h
          obtain rfl := Option.some.inj h
          exact plain_of_parse hk hctl hdot hdots
        · cases h
  · intro h
    obtain ⟨u, u', hparse, harrives, hroute, hpath⟩ := arrives_plain h hne hslash
    rw [requestKey, hparse]
    dsimp only
    rw [harrives]
    dsimp only
    rw [if_pos hroute, hpath, trimKeys_append]

end RaftStore
