import Rs5cmd.Fastpath.Client

/-!
# What a fast-path request addresses

The fast client spells the bucket and the key into its URL without encoding them.
A request addresses its object iff nothing in that text ends a path or reads as a
percent escape.
-/

namespace Rs5cmd

/-- The request is for that object: decoding its path gives the bucket and the
key, and there is no query. -/
def Request.Addresses (req : Request) (target : Str × Str) : Prop :=
  percentDecodeBytes (Utf8.encode req.uri.path) =
      Utf8.encode ('/' :: (target.1 ++ '/' :: target.2)) ∧
    req.uri.query = none

/-- A text that means itself in the path of a URI: it has no `?`, no `#` and no
`%` with two hex digits after it. -/
def PathSafe (s : Str) : Prop :=
  (∀ c ∈ s, endsPath c = false) ∧ hasEscape (Utf8.encode s) = false

instance (s : Str) : Decidable (PathSafe s) :=
  haveI : Decidable (∀ c ∈ s, endsPath c = false) := List.decidableBAll _ s
  inferInstanceAs (Decidable (_ ∧ _))

theorem pathText_eq_self {s : Str} (h : ∀ c ∈ s, endsPath c = false) : pathText s = s :=
  List.takeWhile_eq_self_iff.mpr fun c hc => by simp [h c hc]

theorem queryText_eq_none {s : Str} (h : ∀ c ∈ s, endsPath c = false) : queryText s = none := by
  have hdrop : s.dropWhile (fun c => !endsPath c) = [] :=
    List.dropWhile_eq_nil_iff.mpr fun c hc => by simp [h c hc]
  rw [queryText, hdrop]

theorem length_encode_append (s t : Str) :
    (Utf8.encode (s ++ t)).length = (Utf8.encode s).length + (Utf8.encode t).length := by
  rw [Utf8.encode_append, List.length_append]

/-- The path is all of the text when its bytes are as many. -/
theorem no_endsPath_of_length_le {s : Str}
    (h : (Utf8.encode s).length ≤ (Utf8.encode (pathText s)).length) :
    ∀ c ∈ s, endsPath c = false := by
  have hsplit : pathText s ++ s.dropWhile (fun c => !endsPath c) = s := List.takeWhile_append_dropWhile
  cases hd : s.dropWhile (fun c => !endsPath c) with
  | nil =>
    intro c hc
    have := List.dropWhile_eq_nil_iff.mp hd c hc
    simpa using this
  | cons c rest =>
    -- the character that ends the path has a byte of its own
    exfalso
    rw [hd] at hsplit
    have hlen := congrArg (fun t => (Utf8.encode t).length) hsplit
    simp only [length_encode_append, Utf8.length_encode_cons] at hlen
    have := c.utf8Size_pos
    omega

/-- **Fast-path addressing, exactly.** A request that is built, for whichever
call, addresses the call's object iff the bucket and the key mean themselves in a
path. -/
theorem fast_request_addresses_iff (c : FastClient) (hhttp : c.http.Spec) (call : FastCall)
    (req : Request) (h : c.request call = .ok req) :
    req.Addresses call.target ↔ PathSafe (call.target.1 ++ '/' :: call.target.2) := by
  have huri : req.uri = ⟨[], '/' :: pathText (call.target.1 ++ '/' :: call.target.2),
      queryText (call.target.1 ++ '/' :: call.target.2)⟩ := by
    cases call with
    | put bucket key body => exact (FastClient.buildRequestWithHeaders_ok hhttp h).2.2
    | get bucket key => exact (FastClient.buildRequestWithHeaders_ok hhttp h).2.2
    | delete bucket key => exact (FastClient.buildRequestWithHeaders_ok hhttp h).2.2
    | copy srcBucket srcKey dstBucket dstKey =>
      exact (FastClient.buildRequestWithHeaders_ok hhttp h).2.2
  unfold Request.Addresses
  rw [huri]
  generalize call.target.1 ++ '/' :: call.target.2 = text
  have hslash : ∀ p : Str, percentDecodeBytes (Utf8.encode ('/' :: p)) =
      47 :: percentDecodeBytes (Utf8.encode p) := by
    intro p
    exact percentDecodeBytes_cons (by decide) (Utf8.encode p)
  show percentDecodeBytes (Utf8.encode ('/' :: pathText text)) = 47 :: Utf8.encode text ∧
    queryText text = none ↔ PathSafe text
  rw [hslash, List.cons.injEq]
  constructor
  · rintro ⟨⟨-, hdec⟩, -⟩
    -- decoding never lengthens, so neither the path nor the decoding dropped a byte
    have hle := length_percentDecodeBytes_le (Utf8.encode (pathText text))
    rw [hdec] at hle
    have hends := no_endsPath_of_length_le hle
    refine ⟨hends, ?_⟩
    rw [pathText_eq_self hends] at hdec
    cases hesc : hasEscape (Utf8.encode text) with
    | false => rfl
    | true =>
      have hlt := length_percentDecodeBytes_lt hesc
      rw [hdec] at hlt
      exact absurd hlt (Nat.lt_irrefl _)
  · rintro ⟨hends, hesc⟩
    refine ⟨⟨rfl, ?_⟩, queryText_eq_none hends⟩
    rw [pathText_eq_self hends, percentDecodeBytes_of_hasEscape_eq_false hesc]

/-! ## Concrete requests -/

/-- The URI after `scheme://`. -/
def HttpCrate.sampleAbsolute (scheme rest : Str) : Except Str Uri :=
  match rest.dropWhile fun c => c != '/' with
  | _ :: rest' => .ok ⟨scheme ++ rest.takeWhile fun c => c != '/', '/' :: pathText rest', queryText rest'⟩
  | [] => .error "invalid format".toList

/-- A parser that accepts every text of the two forms, and a signer that adds
nothing. -/
def HttpCrate.sample : HttpCrate where
  parse s :=
    match Str.stripPrefix "http://".toList s, Str.stripPrefix "https://".toList s, s with
    | some rest, _, _ => sampleAbsolute "http://".toList rest
    | none, some rest, _ => sampleAbsolute "https://".toList rest
    | none, none, '/' :: rest => .ok ⟨[], '/' :: pathText rest, queryText rest⟩
    | none, none, _ => .error "invalid format".toList
  sign req := .ok req.headers

theorem HttpCrate.sampleAbsolute_eq (scheme : Str) {authority : Str} (h : IsAuthority authority)
    (rest : Str) : sampleAbsolute scheme (authority ++ '/' :: rest) =
      .ok ⟨scheme ++ authority, '/' :: pathText rest, queryText rest⟩ := by
  have hall : ∀ c ∈ authority, (c != '/') = true := fun c hc => by simp [(h c hc).1]
  have hdrop : (authority ++ '/' :: rest).dropWhile (fun c => c != '/') = '/' :: rest := by
    rw [List.dropWhile_append_of_pos hall]
    simp
  have htake : (authority ++ '/' :: rest).takeWhile (fun c => c != '/') = authority := by
    rw [List.takeWhile_append_of_pos hall]
    simp
  rw [sampleAbsolute, hdrop]
  simp only [htake]

theorem HttpCrate.sample_spec : HttpCrate.sample.Spec := by
  refine ⟨?_, ?_⟩
  · intro scheme authority rest u hscheme hauth h
    rcases List.mem_cons.mp hscheme with rfl | hscheme
    · have hstrip : Str.stripPrefix "http://".toList
          ("http".toList ++ "://".toList ++ authority ++ '/' :: rest) =
            some (authority ++ '/' :: rest) := by
        rw [List.append_assoc]
        exact Str.stripPrefix_append _ _
      simp only [sample, hstrip, sampleAbsolute_eq _ hauth] at h
      exact (Except.ok.inj h).symm
    · obtain rfl := List.mem_singleton.mp hscheme
      have hnone : Str.stripPrefix "http://".toList
          ("https".toList ++ "://".toList ++ authority ++ '/' :: rest) = none := by
        simp [Str.stripPrefix]
      have hstrip : Str.stripPrefix "https://".toList
          ("https".toList ++ "://".toList ++ authority ++ '/' :: rest) =
            some (authority ++ '/' :: rest) := by
        rw [List.append_assoc]
        exact Str.stripPrefix_append _ _
      simp only [sample, hnone, hstrip, sampleAbsolute_eq _ hauth] at h
      exact (Except.ok.inj h).symm
  · intro rest u h
    have hnone : ∀ p : Str, p.head? = some 'h' → Str.stripPrefix p ('/' :: rest) = none := by
      intro p hp
      cases p with
      | nil => cases hp
      | cons c p =>
        obtain rfl : c = 'h' := by simpa using hp
        simp [Str.stripPrefix]
    simp only [sample, hnone "http://".toList (by decide), hnone "https://".toList (by decide)] at h
    exact (Except.ok.inj h).symm

/-- A client for a local endpoint. -/
def FastClient.sample : FastClient where
  endpoint :=
    { scheme := "http".toList
      host := "localhost".toList
      port := 9000
      scheme_mem := by decide
      host_ok := by decide }
  http := .sample

/-- A get of `b/k?v` asks for `b/k`, with a query. -/
theorem fast_request_misses_key :
    ∃ req, FastClient.sample.request (.get "b".toList "k?v".toList) = .ok req ∧
      req.uri.path = "/b/k".toList ∧ req.uri.query = some "v".toList ∧
      ¬ req.Addresses ("b".toList, "k?v".toList) := by
  refine ⟨_, rfl, by decide +kernel, by decide +kernel, ?_⟩
  rintro ⟨-, hquery⟩
  exact absurd hquery (by decide +kernel)

/-- A get of `b/dir/a+b.txt` asks for just that. -/
theorem fast_request_addresses_plain :
    ∃ req, FastClient.sample.request (.get "b".toList "dir/a+b.txt".toList) = .ok req ∧
      req.Addresses ("b".toList, "dir/a+b.txt".toList) := by
  refine ⟨_, rfl, ?_⟩
  exact (fast_request_addresses_iff FastClient.sample HttpCrate.sample_spec
    (.get "b".toList "dir/a+b.txt".toList) _ rfl).mpr (by decide +kernel)

end Rs5cmd
