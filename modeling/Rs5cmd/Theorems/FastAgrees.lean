import Rs5cmd.Theorems.FastCalls
import Rs5cmd.Theorems.Serial

/-!
# The fast path agrees with the default path

A fast-path run and a default run of the same independent transfers leave the same world,
whatever the number of threads and workers and the order of the requests, and although
the fast path has its own client, its own requests and its own retries: provided that the
pairs say nothing that the fast path leaves out (version ids, links, a second endpoint)
and that the keys mean themselves in the URLs it spells.
-/

namespace Rs5cmd.Fastpath

open LexPath Job

/-! ## The pairs -/

/-- The pairs say nothing that the fast path leaves out. -/
structure Plain (job : Job) : Prop where
  sameStore : job.sameStore = true
  links : job.links = false
  accepted : accepts job.pairs = true
  versions : ∀ pr ∈ job.pairs, pr.1.isRemote = true → pr.1.versionId = []
  dst : ∀ pr ∈ job.pairs, pr.2.isRemote = true →
    IsBucketName pr.2.bucket ∧ PathSafe (pr.2.bucket ++ '/' :: pr.2.path)
  srcBucket : ∀ pr ∈ job.pairs, pr.1.isRemote = true → IsBucketName pr.1.bucket
  /-- The key of a copy's source is encoded; that of a download, or of a deletion, is not. -/
  srcKey : ∀ pr ∈ job.pairs, pr.1.isRemote = true → pr.2.isRemote = false ∨ job.isMove = true →
    PathSafe (pr.1.bucket ++ '/' :: pr.1.path)

def srcObject (pr : Url × Url) : Cell := objectCell (pr.1.bucket, pr.1.path)

def dstObject (pr : Url × Url) : Cell := objectCell (pr.2.bucket, pr.2.path)

/-- Which way a pair goes, with what the default path makes of it. -/
inductive Route (job : Job) (w₀ : World) (pr : Url × Url) : Transfer → Prop where
  | upload (hsrc : job.srcCell pr.1 = .file (job.fileLoc pr.1.path))
    (hdst : job.writes w₀ pr = some (dstObject pr)) (ht : job.transferOf w₀ pr = .upload)
    (haddr : ∀ data, FastCall.Addressed (.put pr.2.bucket pr.2.path data)) :
    Route job w₀ pr (.upload pr.1.path pr.2.bucket pr.2.path)
  | download (hsrc : job.srcCell pr.1 = srcObject pr)
    (hdst : job.writes w₀ pr = (w₀.resolve (job.fileLoc pr.2.path)).map .file)
    (hthrough : job.through w₀ pr = w₀.chain (job.fileLoc pr.2.path))
    (ht : job.transferOf w₀ pr = .download)
    (haddr : FastCall.Addressed (.get pr.1.bucket pr.1.path)) :
    Route job w₀ pr (.download pr.1.bucket pr.1.path pr.2.path)
  | copy (hsrc : job.srcCell pr.1 = srcObject pr) (hdst : job.writes w₀ pr = some (dstObject pr))
    (ht : job.transferOf w₀ pr = .copy)
    (haddr : FastCall.Addressed (.copy pr.1.bucket pr.1.path pr.2.bucket pr.2.path))
    (hdelete : job.isMove = true → FastCall.Addressed (.delete pr.1.bucket pr.1.path)) :
    Route job w₀ pr (.copy pr.1.bucket pr.1.path pr.2.bucket pr.2.path)

theorem Plain.route {job : Job} (h : Plain job) {pr : Url × Url} (hpr : pr ∈ job.pairs)
    (w₀ : World) : Route job w₀ pr (ofPair pr) := by
  cases hs : pr.1.isRemote with
  | false =>
    have hd : pr.2.isRemote = true := by
      have haccepted := (Bool.and_eq_true_iff.mp h.accepted).2
      by_contra hno
      have hany : (job.pairs.any fun pr => !pr.1.isRemote && !pr.2.isRemote) = true :=
        List.any_eq_true.mpr ⟨pr, hpr, by simpa [hs] using hno⟩
      rw [hany] at haccepted
      cases haccepted
    have ht : job.transferOf w₀ pr = .upload := by simp [transferOf, h.links, hs, hd]
    have habs : pr.1.absolute = pr.1.path := by simp [Url.absolute, hs]
    rw [show ofPair pr = .upload pr.1.path pr.2.bucket pr.2.path by simp [ofPair, hs, habs]]
    obtain ⟨hbucket, hsafe⟩ := h.dst pr hpr hd
    refine .upload (by simp [srcCell, hs]) ?_ ht fun _ => ⟨hbucket, hsafe, trivial⟩
    simp [writes, ht, Rs5cmd.Transfer.truncates, dstCell, h.sameStore, dstObject, objectCell]
  | true =>
    have hsrc : job.srcCell pr.1 = srcObject pr := by
      simp [srcCell, hs, srcObject, objectCell, h.versions pr hpr hs]
    have hbucket := h.srcBucket pr hpr hs
    cases hd : pr.2.isRemote with
    | false =>
      have ht : job.transferOf w₀ pr = .download := by simp [transferOf, h.links, hs, hd]
      have habs : pr.2.absolute = pr.2.path := by simp [Url.absolute, hd]
      rw [show ofPair pr = .download pr.1.bucket pr.1.path pr.2.path by simp [ofPair, hs, hd, habs]]
      have hsafe := h.srcKey pr hpr hs (.inl hd)
      refine .download hsrc ?_ ?_ ht ⟨hbucket, hsafe, trivial⟩
      · simp [writes, ht, Rs5cmd.Transfer.truncates]
      · simp [through, ht, Rs5cmd.Transfer.truncates]
    | true =>
      have ht : job.transferOf w₀ pr = .copy := by simp [transferOf, h.links, hs, hd]
      rw [show ofPair pr = .copy pr.1.bucket pr.1.path pr.2.bucket pr.2.path by
        simp [ofPair, hs, hd]]
      obtain ⟨hdstBucket, hdstSafe⟩ := h.dst pr hpr hd
      refine .copy hsrc ?_ ht ⟨hdstBucket, hdstSafe, hbucket⟩ ?_
      · simp [writes, ht, Rs5cmd.Transfer.truncates, dstCell, h.sameStore, dstObject, objectCell]
      · intro hmove
        exact ⟨hbucket, h.srcKey pr hpr hs (.inr hmove), trivial⟩

/-! ## One transfer -/

/-- `FastConfig`, as far as it concerns one transfer. -/
def oneConfig (job : Job) (client : FastClient) (showStatus : Nat → Str) (maxRetries : Nat) :
    OneConfig where
  client := client
  showStatus := showStatus
  maxRetries := maxRetries
  isMove := job.isMove
  cwd := job.cwd

@[simp] theorem oneConfig_isMove (job : Job) (client : FastClient) (showStatus : Nat → Str)
    (maxRetries : Nat) : (oneConfig job client showStatus maxRetries).isMove = job.isMove := rfl

/-- The destination holds what the source held. -/
def Written (job : Job) (w₀ w : World) (pr : Url × Url) : Prop :=
  ∃ c, job.writes w₀ pr = some c ∧ w c = job.result w₀ pr

/-- The call that transfers the bytes of a pair. -/
def MainCall (job : Job) (w₀ : World) (pr : Url × Url) (call : FastCall) : Prop :=
  match ofPair pr with
  | .upload _ bucket key => ∃ data, job.original w₀ pr = some data ∧ call = .put bucket key data
  | .download bucket key _ => call = .get bucket key
  | .copy srcBucket srcKey dstBucket dstKey => call = .copy srcBucket srcKey dstBucket dstKey

/-- What is known of a transfer at a stage. -/
def FastAlone (job : Job) (w₀ : World) (pr : Url × Url) (stage : Stage) (w : World) : Prop :=
  match stage with
  | .start => job.Untouched w₀ w pr
  | .opened first => job.Untouched w₀ w pr ∧ job.original w₀ pr = some first
  | .calling call _ => (job.Untouched w₀ w pr ∧ MainCall job w₀ pr call) ∨
    (job.isMove = true ∧ Written job w₀ w pr ∧ pr.1.isRemote = true ∧
      call = .delete pr.1.bucket pr.1.path)
  | .received data => job.Untouched w₀ w pr ∧ job.original w₀ pr = some data
  | .writing l data => job.Untouched w₀ w pr ∧ job.original w₀ pr = some data ∧
    job.writes w₀ pr = some (.file l)
  | .removing => job.isMove = true ∧ Written job w₀ w pr

section Steps

variable {job : Job} {w₀ w v w' : World} {pr : Url × Url} {call : FastCall}

theorem Untouched.bytesAt_src (h : job.Untouched w₀ w pr) (hsrc : job.srcCell pr.1 = srcObject pr)
    (ht : job.transferOf w₀ pr ≠ .uploadLink) :
    w.bytesAt (srcObject pr) = job.original w₀ pr := by
  have hcell : w (srcObject pr) = w₀ (srcObject pr) := by
    rw [← hsrc]
    exact h.1 _ (srcCell_mem_reads job w₀ pr)
  have horig : job.original w₀ pr = w₀.bytesAt (srcObject pr) := by
    unfold original
    rw [hsrc]
    cases htr : job.transferOf w₀ pr with
    | uploadLink => exact absurd htr ht
    | _ => rfl
  rw [horig, World.bytesAt, World.bytesAt, hcell]

/-- What the main call does when it is carried out: the destination gets the bytes of the
source, or nothing changes. -/
theorem MainCall.effect_cases (hroute : Route job w₀ pr (ofPair pr)) (hun : job.Untouched w₀ w pr)
    (h : MainCall job w₀ pr call) :
    (call.effect w = w ∧ ∀ body, call.canAnswer w body = true →
      job.original w₀ pr = some body ∧ afterCall job.isMove (ofPair pr) call body =
        .inl (.received body)) ∨
    ∃ c b, job.writes w₀ pr = some c ∧ job.original w₀ pr = some b ∧
      call.effect w = w.set c (some (stored (job.transferOf w₀ pr) b)) ∧
      ∀ body, afterCall job.isMove (ofPair pr) call body =
        if job.isMove then (if pr.1.isRemote then .inl (.calling (.delete pr.1.bucket pr.1.path) 0)
          else .inl .removing) else .inr (.ok ()) := by
  unfold MainCall at h
  cases hroute' : ofPair pr with
  | upload localPath bucket key =>
    rw [hroute'] at hroute h
    obtain ⟨data, horig, rfl⟩ := h
    cases hroute with
    | upload hsrc hdst ht haddr =>
      have hlocal : pr.1.isRemote = false := by
        by_contra hno
        have := isObject_srcCell job pr.1
        rw [hsrc] at this
        exact hno this.symm
      refine .inr ⟨_, data, hdst, horig, ?_, fun _ => ?_⟩
      · rw [ht]
        rfl
      · rw [hlocal]
        rfl
  | download bucket key localPath =>
    rw [hroute'] at hroute h
    subst h
    cases hroute with
    | download hsrc hdst hthrough ht haddr =>
      refine .inl ⟨rfl, fun body hbody => ⟨?_, rfl⟩⟩
      rw [← Untouched.bytesAt_src hun hsrc (by rw [ht]; simp)]
      exact of_decide_eq_true hbody
  | copy srcBucket srcKey dstBucket dstKey =>
    rw [hroute'] at hroute h
    subst h
    cases hroute with
    | copy hsrc hdst ht haddr hdelete =>
      have hremote : pr.1.isRemote = true := by
        rw [← isObject_srcCell job pr.1, hsrc]
        rfl
      have hbytes := Untouched.bytesAt_src hun hsrc (by rw [ht]; simp)
      cases horig : job.original w₀ pr with
      | none =>
        rw [horig] at hbytes
        refine .inl ⟨FastCall.effect_copy_none _ _ hbytes, fun body hbody => ?_⟩
        have hsome : (w.bytesAt (srcObject pr)).isSome = true := hbody
        rw [hbytes] at hsome
        cases hsome
      | some b =>
        rw [horig] at hbytes
        refine .inr ⟨_, b, hdst, rfl, ?_, fun _ => ?_⟩
        · rw [ht]
          exact FastCall.effect_copy_some _ _ hbytes
        · rw [hremote]
          rfl

/-- What a step may leave: it changes no cell but those of the transfer, keeps what is
known of it, and is its last one only when the work is done. -/
structure Leaves (job : Job) (w₀ : World) (pr : Url × Url) (w w' : World)
    (out : Stage ⊕ Except FastError Unit) : Prop where
  frame : ∀ c, c ∉ job.changed w₀ pr → w' c = w c
  next : ∀ stage, out = .inl stage → FastAlone job w₀ pr stage w'
  done : out = .inr (.ok ()) → job.Done w₀ w' pr

theorem Leaves.error (w : World) (e : FastError) : Leaves job w₀ pr w w (.inr (.error e)) :=
  ⟨fun _ _ => rfl, fun _ h => (by cases h), fun h => (by cases h)⟩

theorem Leaves.stay {stage : Stage} (h : FastAlone job w₀ pr stage w) :
    Leaves job w₀ pr w w (.inl stage) :=
  ⟨fun _ _ => rfl, fun _ hstage => (by cases hstage; exact h), fun h => (by cases h)⟩

/-- A call that has failed is tried again, or that is the end. -/
theorem Leaves.retry {maxRetries attempt : Nat} {e : FastError}
    (hframe : ∀ c, c ∉ job.changed w₀ pr → w' c = w c)
    (hnext : FastAlone job w₀ pr (.calling call (attempt + 1)) w') :
    Leaves job w₀ pr w w' (afterError maxRetries call attempt e) := by
  rcases afterError_cases maxRetries call attempt e with hend | hagain
  · rw [hend]
    exact ⟨hframe, fun _ h => (by cases h), fun h => (by cases h)⟩
  · rw [hagain]
    exact ⟨hframe, fun _ h => (by cases h; exact hnext), fun h => (by cases h)⟩

theorem frame_set {c : Cell} (hc : c ∈ job.changed w₀ pr) (x : Option Content) (c' : Cell)
    (hc' : c' ∉ job.changed w₀ pr) : w.set c x c' = w c' := by
  refine World.set_other x ?_
  rintro rfl
  exact hc' hc

theorem frame_writes {c : Cell} (hc : job.writes w₀ pr = some c) (x : Option Content) (c' : Cell)
    (hc' : c' ∉ job.changed w₀ pr) : w.set c x c' = w c' :=
  frame_set (mem_changed.mpr (.inl hc)) x c' hc'

theorem written_set {c : Cell} {b : List UInt8} (hc : job.writes w₀ pr = some c)
    (horig : job.original w₀ pr = some b) :
    Written job w₀ (w.set c (some (stored (job.transferOf w₀ pr) b))) pr :=
  ⟨c, hc, by rw [World.set_same, result, horig]; rfl⟩

/-- An attempt of the main call. -/
theorem tryCall_leaves_main {client : FastClient} {showStatus : Nat → Str} {maxRetries : Nat}
    (hhttp : client.http.Spec) (hkeeps : client.http.KeepsHeaders)
    (hroute : Route job w₀ pr (ofPair pr))
    (hown : ∀ c ∈ (job.writes w₀ pr).toList, c ∉ job.reads w₀ pr)
    (hun : job.Untouched w₀ w pr) (hmain : MainCall job w₀ pr call) (haddr : call.Addressed)
    {attempt : Nat} {resp : Except Str HttpResponse} {applied : Bool}
    {out : Stage ⊕ Except FastError Unit}
    (h : tryCall (oneConfig job client showStatus maxRetries) (ofPair pr) call attempt resp applied w =
      some (w', out)) : Leaves job w₀ pr w w' out := by
  rw [tryCall_eq hhttp hkeeps haddr] at h
  have heffect := MainCall.effect_cases hroute hun hmain
  split at h
  · rename_i body hexec
    split at h
    · rename_i hok
      obtain ⟨rfl, rfl⟩ := Prod.mk.inj (Option.some.inj h)
      have hanswer := (Bool.and_eq_true_iff.mp hok).2
      rcases heffect with ⟨hsame, hget⟩ | ⟨c, b, hc, horig, hset, hafter⟩
      · obtain ⟨horig, hafter⟩ := hget body hanswer
        rw [hsame, oneConfig_isMove, hafter]
        exact .stay ⟨hun, horig⟩
      · rw [hset, oneConfig_isMove, hafter]
        have hwritten : Written job w₀ _ pr := @written_set job w₀ w pr c b hc horig
        refine ⟨frame_writes hc _, ?_, ?_⟩
        · intro stage hstage
          cases hmove : job.isMove with
          | false =>
            rw [hmove] at hstage
            cases hstage
          | true =>
            cases hremote : pr.1.isRemote with
            | true =>
              rw [hmove, hremote] at hstage
              obtain rfl := Sum.inl.inj hstage
              exact .inr ⟨hmove, hwritten, hremote, rfl⟩
            | false =>
              rw [hmove, hremote] at hstage
              obtain rfl := Sum.inl.inj hstage
              exact ⟨hmove, hwritten⟩
        · intro hdone
          refine ⟨hwritten, fun hmove => ?_⟩
          rw [hmove] at hdone
          cases hremote : pr.1.isRemote <;> rw [hremote] at hdone <;> cases hdone
    · cases h
  · rename_i e hexec
    obtain ⟨rfl, rfl⟩ := Prod.mk.inj (Option.some.inj h)
    split
    · rcases heffect with ⟨hsame, -⟩ | ⟨c, b, hc, -, hset, -⟩
      · rw [hsame]
        exact .retry (fun _ _ => rfl) (.inl ⟨hun, hmain⟩)
      · rw [hset]
        exact .retry (frame_writes hc _) (.inl ⟨hun.set hown hc, hmain⟩)
    · exact .retry (fun _ _ => rfl) (.inl ⟨hun, hmain⟩)

theorem srcCell_of_isRemote (hroute : Route job w₀ pr (ofPair pr)) (hremote : pr.1.isRemote = true) :
    job.srcCell pr.1 = srcObject pr := by
  have hobj := isObject_srcCell job pr.1
  rw [hremote] at hobj
  cases hroute' : ofPair pr with
  | upload localPath bucket key =>
    rw [hroute'] at hroute
    cases hroute with
    | upload hsrc hdst ht haddr =>
      rw [hsrc] at hobj
      cases hobj
  | download bucket key localPath =>
    rw [hroute'] at hroute
    cases hroute with
    | download hsrc hdst hthrough ht haddr => exact hsrc
  | copy srcBucket srcKey dstBucket dstKey =>
    rw [hroute'] at hroute
    cases hroute with
    | copy hsrc hdst ht haddr hdelete => exact hsrc

/-- Removing the source of a move ends it. -/
theorem Written.remove (hown : ∀ c ∈ (job.writes w₀ pr).toList, c ∉ job.reads w₀ pr)
    (h : Written job w₀ w pr) : Written job w₀ (w.set (job.srcCell pr.1) none) pr := by
  obtain ⟨c, hc, hw⟩ := h
  have hne : c ≠ job.srcCell pr.1 := by
    rintro rfl
    exact hown _ (Option.mem_toList.mpr hc) (srcCell_mem_reads job w₀ pr)
  exact ⟨c, hc, by rw [World.set_other _ hne]; exact hw⟩

theorem removed_leaves (hown : ∀ c ∈ (job.writes w₀ pr).toList, c ∉ job.reads w₀ pr)
    (hmove : job.isMove = true) (h : Written job w₀ w pr) :
    Leaves job w₀ pr w (w.set (job.srcCell pr.1) none) (.inr (.ok ())) := by
  refine ⟨frame_set (mem_changed.mpr (.inr ⟨hmove, rfl⟩)) none, fun _ hout => (by cases hout), ?_⟩
  exact fun _ => ⟨h.remove hown, fun _ => World.set_same w _ _⟩

/-- An attempt to delete the source. -/
theorem tryCall_leaves_delete {client : FastClient} {showStatus : Nat → Str} {maxRetries : Nat}
    (hhttp : client.http.Spec) (hkeeps : client.http.KeepsHeaders)
    (hroute : Route job w₀ pr (ofPair pr))
    (hown : ∀ c ∈ (job.writes w₀ pr).toList, c ∉ job.reads w₀ pr)
    (hmove : job.isMove = true) (hwritten : Written job w₀ w pr) (hremote : pr.1.isRemote = true)
    (haddr : FastCall.Addressed (.delete pr.1.bucket pr.1.path))
    {attempt : Nat} {resp : Except Str HttpResponse} {applied : Bool}
    {out : Stage ⊕ Except FastError Unit}
    (h : tryCall (oneConfig job client showStatus maxRetries) (ofPair pr)
      (.delete pr.1.bucket pr.1.path) attempt resp applied w = some (w', out)) :
    Leaves job w₀ pr w w' out := by
  have hsrc := srcCell_of_isRemote hroute hremote
  have heffect : FastCall.effect w (.delete pr.1.bucket pr.1.path) =
      w.set (job.srcCell pr.1) none := by
    rw [hsrc]
    rfl
  have hafter : ∀ body, afterCall job.isMove (ofPair pr) (.delete pr.1.bucket pr.1.path) body =
      .inr (.ok ()) := by
    intro body
    cases ofPair pr <;> rfl
  rw [tryCall_eq hhttp hkeeps haddr, heffect] at h
  split at h
  · rename_i body hexec
    split at h
    · obtain ⟨rfl, rfl⟩ := Prod.mk.inj (Option.some.inj h)
      rw [oneConfig_isMove, hafter]
      exact removed_leaves hown hmove hwritten
    · cases h
  · obtain ⟨rfl, rfl⟩ := Prod.mk.inj (Option.some.inj h)
    split
    · exact .retry (frame_set (mem_changed.mpr (.inr ⟨hmove, rfl⟩)) none)
        (.inr ⟨hmove, hwritten.remove hown, hremote, rfl⟩)
    · exact .retry (fun _ _ => rfl) (.inr ⟨hmove, hwritten, hremote, rfl⟩)

theorem MainCall.addressed (hroute : Route job w₀ pr (ofPair pr)) (h : MainCall job w₀ pr call) :
    call.Addressed := by
  unfold MainCall at h
  generalize hitem : ofPair pr = item at hroute h
  cases hroute with
  | upload hsrc hdst ht haddr =>
    obtain ⟨data, -, rfl⟩ := h
    exact haddr data
  | download hsrc hdst hthrough ht haddr =>
    obtain rfl := h
    exact haddr
  | copy hsrc hdst ht haddr hdelete =>
    obtain rfl := h
    exact haddr

theorem delete_addressed (hroute : Route job w₀ pr (ofPair pr)) (hmove : job.isMove = true)
    (hremote : pr.1.isRemote = true) : FastCall.Addressed (.delete pr.1.bucket pr.1.path) := by
  generalize hitem : ofPair pr = item at hroute
  cases hroute with
  | upload hsrc hdst ht haddr =>
    have hobj := isObject_srcCell job pr.1
    rw [hsrc, hremote] at hobj
    cases hobj
  | download hsrc hdst hthrough ht haddr => exact haddr
  | copy hsrc hdst ht haddr hdelete => exact hdelete hmove

/-- Reading the local source. -/
theorem Untouched.read_src (hun : job.Untouched w₀ w pr) (ht : job.transferOf w₀ pr = .upload)
    (hsrc : job.srcCell pr.1 = .file (job.fileLoc pr.1.path)) :
    w.read (.file (job.fileLoc pr.1.path)) = job.original w₀ pr := by
  rw [← content_congr hun.1, ht, ← hsrc]
  rfl

/-- The file that is created is the one the default path writes. -/
theorem Untouched.resolve_dst (hun : job.Untouched w₀ w pr)
    (hthrough : job.through w₀ pr = w₀.chain (job.fileLoc pr.2.path)) :
    w.resolve (job.fileLoc pr.2.path) = w₀.resolve (job.fileLoc pr.2.path) :=
  World.resolve_congr fun x hx => hun.2 x (hthrough ▸ hx)

/-- Writing a file keeps what is known of the transfer. -/
theorem Untouched.write (hun : job.Untouched w₀ w pr)
    (hown : ∀ c ∈ (job.writes w₀ pr).toList, c ∉ job.reads w₀ pr) {l : Loc Name}
    (hl : job.writes w₀ pr = some (.file l)) (ht : job.transferOf w₀ pr = .download)
    (b : List UInt8) : job.Untouched w₀ (w.set (.file l) (some (.bytes b))) pr := by
  have hset : job.Untouched w₀ (w.set (.file l) (some (stored (job.transferOf w₀ pr) b))) pr :=
    hun.set hown hl
  rw [ht] at hset
  exact hset

/-- Only a download writes a file. -/
theorem download_of_writes (hroute : Route job w₀ pr (ofPair pr)) {l : Loc Name}
    (hl : job.writes w₀ pr = some (.file l)) : job.transferOf w₀ pr = .download := by
  generalize hitem : ofPair pr = item at hroute
  cases hroute with
  | upload hsrc hdst ht haddr =>
    rw [hdst, dstObject, objectCell] at hl
    cases hl
  | download hsrc hdst hthrough ht haddr => exact ht
  | copy hsrc hdst ht haddr hdelete =>
    rw [hdst, dstObject, objectCell] at hl
    cases hl

/-- **A step of `do_one`.** -/
theorem doOne_leaves {client : FastClient} {showStatus : Nat → Str} {maxRetries : Nat}
    (hhttp : client.http.Spec) (hkeeps : client.http.KeepsHeaders)
    (hroute : Route job w₀ pr (ofPair pr))
    (hown : ∀ c ∈ (job.writes w₀ pr).toList, c ∉ job.reads w₀ pr) {stage : Stage} {e : StageEvent}
    (hI : FastAlone job w₀ pr stage w) {out : Stage ⊕ Except FastError Unit}
    (h : doOne (oneConfig job client showStatus maxRetries) (ofPair pr) stage e w =
      some (w', out)) : Leaves job w₀ pr w w' out := by
  cases stage with
  | calling call attempt =>
    cases e with
    | answer resp applied =>
      have h' : tryCall (oneConfig job client showStatus maxRetries) (ofPair pr) call attempt resp
        applied w = some (w', out) := by simpa only [doOne] using h
      rcases hI with ⟨hun, hmain⟩ | ⟨hmove, hwritten, hremote, rfl⟩
      · exact tryCall_leaves_main hhttp hkeeps hroute hown hun hmain (hmain.addressed hroute) h'
      · exact tryCall_leaves_delete hhttp hkeeps hroute hown hmove hwritten hremote
          (delete_addressed hroute hmove hremote) h'
    | _ => cases h
  | start =>
    cases e with
    | go =>
      generalize hitem : ofPair pr = item at hroute h
      cases hroute with
      | upload hsrc hdst ht haddr =>
        obtain ⟨first, hfirst, hout⟩ := Option.map_eq_some_iff.mp h
        obtain ⟨rfl, rfl⟩ := Prod.mk.inj hout
        refine .stay ⟨hI, ?_⟩
        rw [← Untouched.read_src hI ht hsrc]
        exact hfirst
      | download hsrc hdst hthrough ht haddr =>
        obtain ⟨rfl, rfl⟩ := Prod.mk.inj (Option.some.inj h)
        refine .stay (.inl ⟨hI, ?_⟩)
        rw [MainCall, hitem]
      | copy hsrc hdst ht haddr hdelete =>
        obtain ⟨rfl, rfl⟩ := Prod.mk.inj (Option.some.inj h)
        refine .stay (.inl ⟨hI, ?_⟩)
        rw [MainCall, hitem]
    | fail e =>
      obtain ⟨rfl, rfl⟩ := Prod.mk.inj (Option.some.inj h)
      exact .error w e
    | _ => cases h
  | opened first =>
    cases e with
    | go =>
      obtain ⟨hun, horig⟩ := hI
      generalize hitem : ofPair pr = item at hroute h
      cases hroute with
      | upload hsrc hdst ht haddr =>
        have hread : w.read (.file (job.fileLoc pr.1.path)) = some first := by
          rw [Untouched.read_src hun ht hsrc, horig]
        have hdata : (w.read (.file ((oneConfig job client showStatus maxRetries).fileLoc
            pr.1.path))).getD first = first := by
          rw [show (oneConfig job client showStatus maxRetries).fileLoc pr.1.path =
            job.fileLoc pr.1.path from rfl, hread]
          rfl
        simp only [doOne, hdata, Nat.le_refl, if_true, List.take_length] at h
        obtain ⟨rfl, rfl⟩ := Prod.mk.inj (Option.some.inj h)
        refine .stay (.inl ⟨hun, ?_⟩)
        rw [MainCall, hitem]
        exact ⟨first, horig, rfl⟩
      | download hsrc hdst hthrough ht haddr => cases h
      | copy hsrc hdst ht haddr hdelete => cases h
    | fail e =>
      obtain ⟨rfl, rfl⟩ := Prod.mk.inj (Option.some.inj h)
      exact .error w e
    | _ => cases h
  | received data =>
    cases e with
    | go =>
      obtain ⟨hun, horig⟩ := hI
      generalize hitem : ofPair pr = item at hroute h
      cases hroute with
      | download hsrc hdst hthrough ht haddr =>
        obtain ⟨l, hl, hout⟩ := Option.map_eq_some_iff.mp h
        obtain ⟨rfl, rfl⟩ := Prod.mk.inj hout
        have hl' : job.writes w₀ pr = some (.file l) := by
          rw [hdst, ← Untouched.resolve_dst hun hthrough]
          exact congrArg (Option.map Cell.file) hl
        refine ⟨frame_writes hl' _, ?_, fun hdone => (by cases hdone)⟩
        rintro _ ⟨rfl⟩
        exact ⟨Untouched.write hun hown hl' ht [], horig, hl'⟩
      | upload hsrc hdst ht haddr => cases h
      | copy hsrc hdst ht haddr hdelete => cases h
    | fail e =>
      obtain ⟨rfl, rfl⟩ := Prod.mk.inj (Option.some.inj h)
      exact .error w e
    | _ => cases h
  | writing l data =>
    obtain ⟨hun, horig, hl⟩ := hI
    cases e with
    | go =>
      generalize hitem : ofPair pr = item at hroute h
      cases hroute with
      | download hsrc hdst hthrough ht haddr =>
        obtain ⟨rfl, rfl⟩ := Prod.mk.inj (Option.some.inj h)
        have hwritten : Written job w₀ (w.set (.file l) (some (.bytes data))) pr := by
          refine ⟨_, hl, ?_⟩
          rw [World.set_same, result, horig, ht]
          rfl
        refine ⟨frame_writes hl _, ?_, ?_⟩
        · intro stage hstage
          rw [oneConfig_isMove] at hstage
          split at hstage
          · rename_i hmove
            obtain rfl := Sum.inl.inj hstage
            have hremote : pr.1.isRemote = true := by
              rw [← isObject_srcCell job pr.1, hsrc]
              rfl
            exact .inr ⟨hmove, hwritten, hremote, rfl⟩
          · cases hstage
        · intro hdone
          refine ⟨hwritten, fun hmove => ?_⟩
          rw [oneConfig_isMove, if_pos hmove] at hdone
          cases hdone
      | upload hsrc hdst ht haddr => cases h
      | copy hsrc hdst ht haddr hdelete => cases h
    | write meanwhile =>
      obtain ⟨rfl, rfl⟩ := Prod.mk.inj (Option.some.inj h)
      refine ⟨frame_writes hl _, ?_, fun hdone => (by cases hdone)⟩
      rintro _ ⟨rfl⟩
      exact ⟨Untouched.write hun hown hl (download_of_writes hroute hl) meanwhile, horig, hl⟩
    | fail e =>
      obtain ⟨rfl, rfl⟩ := Prod.mk.inj (Option.some.inj h)
      exact .error w e
    | answer resp applied => cases h
  | removing =>
    obtain ⟨hmove, hwritten⟩ := hI
    cases e with
    | go =>
      generalize hitem : ofPair pr = item at hroute h
      cases hroute with
      | upload hsrc hdst ht haddr =>
        obtain ⟨_, -, hout⟩ := Option.map_eq_some_iff.mp h
        obtain ⟨rfl, rfl⟩ := Prod.mk.inj hout
        have hleaves := removed_leaves hown hmove hwritten
        rw [hsrc] at hleaves
        exact hleaves
      | download hsrc hdst hthrough ht haddr => cases h
      | copy hsrc hdst ht haddr hdelete => cases h
    | fail e =>
      obtain ⟨rfl, rfl⟩ := Prod.mk.inj (Option.some.inj h)
      exact .error w e
    | _ => cases h

theorem FastAlone.congr {stage : Stage} (h : FastAlone job w₀ pr stage w)
    (heq : ∀ c ∈ job.touched w₀ pr, w c = v c) : FastAlone job w₀ pr stage v := by
  have hwritten : Written job w₀ w pr → Written job w₀ v pr := by
    rintro ⟨c, hc, hw⟩
    exact ⟨c, hc, by rw [← heq c (mem_touched.mpr (.inl hc))]; exact hw⟩
  cases stage with
  | start => exact Untouched.congr h heq
  | opened first => exact ⟨h.1.congr heq, h.2⟩
  | calling call attempt =>
    rcases h with ⟨hun, hmain⟩ | ⟨hmove, hw, hrest⟩
    · exact .inl ⟨hun.congr heq, hmain⟩
    · exact .inr ⟨hmove, hwritten hw, hrest⟩
  | received data => exact ⟨h.1.congr heq, h.2⟩
  | writing l data => exact ⟨h.1.congr heq, h.2⟩
  | removing => exact ⟨h.1, hwritten h.2⟩

theorem MainCall.reads_touched (hroute : Route job w₀ pr (ofPair pr)) (h : MainCall job w₀ pr call) :
    ∀ c ∈ call.reads, c ∈ job.touched w₀ pr := by
  have hsrc : job.srcCell pr.1 ∈ job.touched w₀ pr :=
    mem_touched.mpr (.inr (.inl (srcCell_mem_reads job w₀ pr)))
  unfold MainCall at h
  generalize hitem : ofPair pr = item at hroute h
  intro c hc
  cases hroute with
  | upload hsrc' hdst ht haddr =>
    obtain ⟨data, -, rfl⟩ := h
    cases hc
  | download hsrc' hdst hthrough ht haddr =>
    obtain rfl := h
    obtain rfl := Option.some.inj hc
    rw [hsrc'] at hsrc
    exact hsrc
  | copy hsrc' hdst ht haddr hdelete =>
    obtain rfl := h
    obtain rfl := Option.some.inj hc
    rw [hsrc'] at hsrc
    exact hsrc

/-- An attempt depends only on what the transfer touches. -/
theorem tryCall_congr {client : FastClient} {showStatus : Nat → Str} {maxRetries : Nat}
    (hhttp : client.http.Spec) (hkeeps : client.http.KeepsHeaders) (haddr : call.Addressed)
    (hreads : ∀ c ∈ call.reads, c ∈ job.touched w₀ pr)
    (heq : ∀ c ∈ job.touched w₀ pr, w c = v c) {item : Transfer}
    {attempt : Nat} {resp : Except Str HttpResponse} {applied : Bool}
    {out : Stage ⊕ Except FastError Unit}
    (h : tryCall (oneConfig job client showStatus maxRetries) item call attempt resp applied w =
      some (w', out)) :
    ∃ v', tryCall (oneConfig job client showStatus maxRetries) item call attempt resp applied v =
      some (v', out) ∧ ∀ c ∈ job.touched w₀ pr, w' c = v' c := by
  have hread : ∀ c ∈ call.reads, w c = v c := fun c hc => heq c (hreads c hc)
  have heffect : ∀ c ∈ job.touched w₀ pr, call.effect w c = call.effect v c :=
    fun c hc => FastCall.effect_congr hread (heq c hc)
  rw [tryCall_eq hhttp hkeeps haddr] at h ⊢
  cases hexec : client.exec showStatus (fun _ => resp) call with
  | ok body =>
    rw [show (oneConfig job client showStatus maxRetries).client.exec
      (oneConfig job client showStatus maxRetries).showStatus (fun _ => resp) call = _ from hexec] at h ⊢
    simp only [FastCall.canAnswer_congr hread body] at h ⊢
    split at h
    · rename_i hok
      obtain ⟨rfl, rfl⟩ := Prod.mk.inj (Option.some.inj h)
      exact ⟨call.effect v, if_pos hok, heffect⟩
    · cases h
  | error e =>
    rw [show (oneConfig job client showStatus maxRetries).client.exec
      (oneConfig job client showStatus maxRetries).showStatus (fun _ => resp) call = _ from hexec] at h ⊢
    obtain ⟨rfl, rfl⟩ := Prod.mk.inj (Option.some.inj h)
    refine ⟨_, rfl, ?_⟩
    intro c hc
    split
    · exact heffect c hc
    · exact heq c hc

/-- **A step of `do_one` depends only on what the transfer touches.** -/
theorem doOne_congr {client : FastClient} {showStatus : Nat → Str} {maxRetries : Nat}
    (hhttp : client.http.Spec) (hkeeps : client.http.KeepsHeaders)
    (hroute : Route job w₀ pr (ofPair pr)) {stage : Stage} {e : StageEvent}
    (hI : FastAlone job w₀ pr stage w) (heq : ∀ c ∈ job.touched w₀ pr, w c = v c)
    {out : Stage ⊕ Except FastError Unit}
    (h : doOne (oneConfig job client showStatus maxRetries) (ofPair pr) stage e w =
      some (w', out)) :
    ∃ v', doOne (oneConfig job client showStatus maxRetries) (ofPair pr) stage e v =
      some (v', out) ∧ ∀ c ∈ job.touched w₀ pr, w' c = v' c := by
  have hI' := hI.congr heq
  have hset : ∀ c x, ∀ c' ∈ job.touched w₀ pr, w.set c x c' = v.set c x c' :=
    fun c x c' hc' => World.set_congr x (heq c' hc')
  cases stage with
  | calling call attempt =>
    cases e with
    | answer resp applied =>
      have h' : tryCall (oneConfig job client showStatus maxRetries) (ofPair pr) call attempt resp
        applied w = some (w', out) := by simpa only [doOne] using h
      rcases hI with ⟨hun, hmain⟩ | ⟨hmove, hwritten, hremote, rfl⟩
      · exact tryCall_congr hhttp hkeeps (hmain.addressed hroute) (hmain.reads_touched hroute) heq h'
      · exact tryCall_congr hhttp hkeeps (delete_addressed hroute hmove hremote)
          (fun c hc => by cases hc) heq h'
    | _ => cases h
  | start =>
    cases e with
    | go =>
      generalize hitem : ofPair pr = item at hroute h ⊢
      cases hroute with
      | upload hsrc hdst ht haddr =>
        obtain ⟨first, hfirst, hout⟩ := Option.map_eq_some_iff.mp h
        obtain ⟨rfl, rfl⟩ := Prod.mk.inj hout
        refine ⟨v, Option.map_eq_some_iff.mpr ⟨first, ?_, rfl⟩, heq⟩
        rw [← hfirst]
        exact (Untouched.read_src hI' ht hsrc).trans (Untouched.read_src hI ht hsrc).symm
      | download hsrc hdst hthrough ht haddr =>
        obtain ⟨rfl, rfl⟩ := Prod.mk.inj (Option.some.inj h)
        exact ⟨v, rfl, heq⟩
      | copy hsrc hdst ht haddr hdelete =>
        obtain ⟨rfl, rfl⟩ := Prod.mk.inj (Option.some.inj h)
        exact ⟨v, rfl, heq⟩
    | fail e =>
      obtain ⟨rfl, rfl⟩ := Prod.mk.inj (Option.some.inj h)
      exact ⟨v, rfl, heq⟩
    | _ => cases h
  | opened first =>
    cases e with
    | go =>
      generalize hitem : ofPair pr = item at hroute h ⊢
      cases hroute with
      | upload hsrc hdst ht haddr =>
        have hread : v.read (.file (job.fileLoc pr.1.path)) = w.read (.file (job.fileLoc pr.1.path)) :=
          (Untouched.read_src hI'.1 ht hsrc).trans (Untouched.read_src hI.1 ht hsrc).symm
        simp only [doOne, show (oneConfig job client showStatus maxRetries).fileLoc pr.1.path =
          job.fileLoc pr.1.path from rfl, hread] at h ⊢
        split at h
        · rename_i hlen
          obtain ⟨rfl, rfl⟩ := Prod.mk.inj (Option.some.inj h)
          exact ⟨v, if_pos hlen, heq⟩
        · rename_i hlen
          obtain ⟨rfl, rfl⟩ := Prod.mk.inj (Option.some.inj h)
          exact ⟨v, if_neg hlen, heq⟩
      | download hsrc hdst hthrough ht haddr => cases h
      | copy hsrc hdst ht haddr hdelete => cases h
    | fail e =>
      obtain ⟨rfl, rfl⟩ := Prod.mk.inj (Option.some.inj h)
      exact ⟨v, rfl, heq⟩
    | _ => cases h
  | received data =>
    cases e with
    | go =>
      generalize hitem : ofPair pr = item at hroute h ⊢
      cases hroute with
      | download hsrc hdst hthrough ht haddr =>
        obtain ⟨l, hl, hout⟩ := Option.map_eq_some_iff.mp h
        obtain ⟨rfl, rfl⟩ := Prod.mk.inj hout
        refine ⟨_, Option.map_eq_some_iff.mpr ⟨l, ?_, rfl⟩, hset _ _⟩
        rw [← hl]
        exact (Untouched.resolve_dst hI'.1 hthrough).trans (Untouched.resolve_dst hI.1 hthrough).symm
      | upload hsrc hdst ht haddr => cases h
      | copy hsrc hdst ht haddr hdelete => cases h
    | fail e =>
      obtain ⟨rfl, rfl⟩ := Prod.mk.inj (Option.some.inj h)
      exact ⟨v, rfl, heq⟩
    | _ => cases h
  | writing l data =>
    cases e with
    | go =>
      generalize hitem : ofPair pr = item at hroute h ⊢
      cases hroute with
      | download hsrc hdst hthrough ht haddr =>
        obtain ⟨rfl, rfl⟩ := Prod.mk.inj (Option.some.inj h)
        exact ⟨_, rfl, hset _ _⟩
      | upload hsrc hdst ht haddr => cases h
      | copy hsrc hdst ht haddr hdelete => cases h
    | write meanwhile =>
      obtain ⟨rfl, rfl⟩ := Prod.mk.inj (Option.some.inj h)
      exact ⟨_, rfl, hset _ _⟩
    | fail e =>
      obtain ⟨rfl, rfl⟩ := Prod.mk.inj (Option.some.inj h)
      exact ⟨v, rfl, heq⟩
    | answer resp applied => cases h
  | removing =>
    cases e with
    | go =>
      have hmem : job.srcCell pr.1 ∈ job.touched w₀ pr :=
        mem_touched.mpr (.inr (.inl (srcCell_mem_reads job w₀ pr)))
      generalize hitem : ofPair pr = item at hroute h ⊢
      cases hroute with
      | upload hsrc hdst ht haddr =>
        rw [hsrc] at hmem
        obtain ⟨x, hx, hout⟩ := Option.map_eq_some_iff.mp h
        obtain ⟨rfl, rfl⟩ := Prod.mk.inj hout
        refine ⟨_, Option.map_eq_some_iff.mpr ⟨x, ?_, rfl⟩, hset _ _⟩
        rw [← hx]
        exact (heq _ hmem).symm
      | download hsrc hdst hthrough ht haddr => cases h
      | copy hsrc hdst ht haddr hdelete => cases h
    | fail e =>
      obtain ⟨rfl, rfl⟩ := Prod.mk.inj (Option.some.inj h)
      exact ⟨v, rfl, heq⟩
    | _ => cases h

end Steps

/-! ## The shards -/

section Shard

variable {α : Type} {n : Nat} {items : List α}

/-- The place in the work-list of the item `t.2` of the shard `t.1`. -/
def shardPos (n : Nat) (items : List α) (t : Nat × Nat) : Option Nat :=
  if t.1 < n then ((items.zipIdx.filter fun e => e.2 % n = t.1)[t.2]?).map Prod.snd else none

theorem getElem?_shards (n : Nat) (items : List α) (t : Nat × Nat) :
    ((shards n items)[t.1]?.getD [])[t.2]? = (shardPos n items t).bind fun j => items[j]? := by
  unfold shardPos shards
  split
  · rename_i hlt
    rw [List.getElem?_map, List.getElem?_range hlt]
    show ((items.zipIdx.filter fun e => e.2 % n = t.1).map Prod.fst)[t.2]? = _
    rw [List.getElem?_map]
    cases he : (items.zipIdx.filter fun e => e.2 % n = t.1)[t.2]? with
    | none => rfl
    | some e =>
      have hmem := List.mem_of_mem_filter (List.mem_of_getElem? he)
      exact (List.mk_mem_zipIdx_iff_getElem?.mp hmem).symm
  · rename_i hle
    have hnone : (List.range n)[t.1]? = none :=
      List.getElem?_eq_none (by rw [List.length_range]; omega)
    rw [List.getElem?_map, hnone]
    rfl

theorem shardPos_inj {t t' : Nat × Nat} {j : Nat} (h : shardPos n items t = some j)
    (h' : shardPos n items t' = some j) : t = t' := by
  have hone : ∀ {t : Nat × Nat}, shardPos n items t = some j → j % n = t.1 ∧
      ((items.zipIdx.filter fun e => e.2 % n = j % n).map Prod.snd)[t.2]? = some j := by
    intro t h
    unfold shardPos at h
    split at h
    · obtain ⟨e, he, rfl⟩ := Option.map_eq_some_iff.mp h
      have hmod : e.2 % n = t.1 :=
        of_decide_eq_true (List.mem_filter.mp (List.mem_of_getElem? he)).2
      refine ⟨hmod, ?_⟩
      rw [List.getElem?_map, hmod, he]
      rfl
    · cases h
  obtain ⟨hmod, hget⟩ := hone h
  obtain ⟨hmod', hget'⟩ := hone h'
  have hnodup : ((items.zipIdx.filter fun e => e.2 % n = j % n).map Prod.snd).Nodup :=
    (by rw [List.zipIdx_map_snd]; exact List.nodup_range' : (items.zipIdx.map Prod.snd).Nodup).sublist
      (List.filter_sublist.map Prod.snd)
  have hlt : t.2 < ((items.zipIdx.filter fun e => e.2 % n = j % n).map Prod.snd).length :=
    (List.getElem?_eq_some_iff.mp hget).1
  exact Prod.ext (hmod.symm.trans hmod') ((List.getElem?_inj hlt hnodup).mp (hget.trans hget'.symm))

/-- Every item is in a shard. -/
theorem exists_shardPos (hn : 0 < n) {j : Nat} (hj : j < items.length) :
    ∃ t, t.1 < n ∧ shardPos n items t = some j := by
  have hmem : (items[j], j) ∈ items.zipIdx.filter fun e => e.2 % n = j % n := by
    refine List.mem_filter.mpr ⟨?_, decide_eq_true rfl⟩
    exact List.mk_mem_zipIdx_iff_getElem?.mpr (List.getElem?_eq_getElem hj)
  obtain ⟨i, hi⟩ := List.mem_iff_getElem?.mp hmem
  refine ⟨(j % n, i), Nat.mod_lt j hn, ?_⟩
  rw [shardPos, if_pos (Nat.mod_lt j hn), hi]
  rfl

end Shard

/-! ## The runs -/

section Run

variable {job : Job} {w₀ : World} {client : FastClient} {showStatus : Nat → Str} {maxRetries : Nat}

/-- The number of threads. -/
def threads (cores : Nat) (job : Job) : Nat := min (max cores 1) job.pairs.length

/-- The tasks of the fast path for the pairs of `job`, one family for each thread. -/
def fastPath (job : Job) (client : FastClient) (showStatus : Nat → Str)
    (maxRetries cores concurrency : Nat) :
    Nat → Tasks World Stage (Except FastError Unit) StageEvent :=
  fastTasks (oneConfig job client showStatus maxRetries) cores concurrency (job.pairs.map ofPair)

/-- The fast path carries out the transfers. -/
theorem fastPath_implements (hhttp : client.http.Spec) (hkeeps : client.http.KeepsHeaders)
    (hplain : Plain job) (h : job.Independent w₀) (cores concurrency : Nat) :
    job.Implements w₀ (shardPos (threads cores job) (job.pairs.map ofPair)) (fun _ => .start)
      (Shards.work (fastPath job client showStatus maxRetries cores concurrency))
      (fun pr => doOne (oneConfig job client showStatus maxRetries) (ofPair pr))
      (FastAlone job w₀) (fun r => r = .ok ()) where
  pos_inj := fun _ _ _ hi hj => shardPos_inj hi hj
  work_eq := by
    intro t stage e w
    have hlen : min (max cores 1) (job.pairs.map ofPair).length = threads cores job := by
      rw [List.length_map]
      rfl
    have hitem := getElem?_shards (threads cores job) (job.pairs.map ofPair) t
    show (shardTasks _ _ ((shards (min (max cores 1) (job.pairs.map ofPair).length)
      (job.pairs.map ofPair))[t.1]?.getD [])).work t.2 stage e w = _
    rw [shardTasks_work, hlen, hitem]
    cases shardPos (threads cores job) (job.pairs.map ofPair) t with
    | none => rfl
    | some j =>
      show ((job.pairs.map ofPair)[j]?).bind _ = (job.pairs[j]?).bind _
      rw [List.getElem?_map, Option.bind_map]
      rfl
  start_ok := fun _ _ _ => ⟨fun _ _ => rfl, fun _ _ => rfl⟩
  congr := fun _ _ _ _ hI heq => hI.congr heq
  frame := by
    intro pr hpr stage e w w' out hI hstep
    have hleaves := doOne_leaves hhttp hkeeps (hplain.route hpr w₀) (h.own pr hpr) hI hstep
    exact ⟨hleaves.frame, hleaves.next⟩
  done := by
    rintro pr hpr stage e w w' _ hI hstep rfl
    exact (doOne_leaves hhttp hkeeps (hplain.route hpr w₀) (h.own pr hpr) hI hstep).done rfl
  steps := fun pr hpr _ _ _ _ _ _ hI heq hstep =>
    doOne_congr hhttp hkeeps (hplain.route hpr w₀) hI heq hstep

/-- A run of the fast path in which every transfer succeeds ends in the outcome. -/
theorem fastPath_outcome (hhttp : client.http.Spec) (hkeeps : client.http.KeepsHeaders)
    (hplain : Plain job) (h : job.Independent w₀) {cores concurrency : Nat}
    {sched : List (Nat × Pool.Event StageEvent)} {f : Shards World Stage (Except FastError Unit)}
    (hrun : Machine.run (Shards.step (fastPath job client showStatus maxRetries cores concurrency))
      (Shards.init (threads cores job) w₀) sched = some f)
    (hcomplete : Shards.Complete (fastPath job client showStatus maxRetries cores concurrency) f)
    (hok : ∀ p ∈ f.members, ∀ t ∈ p.results, t.2 = .ok ()) : f.shared = job.outcome w₀ := by
  obtain ⟨es, status, hturns, hfollows⟩ := Shards.run_turns hrun
  obtain ⟨hclean, hdone⟩ :=
    (fastPath_implements hhttp hkeeps hplain h cores concurrency).run_done h hturns
  funext c
  refine eq_outcome_of_done h hclean ?_
  intro pr hpr hc
  obtain ⟨j, hj⟩ := List.mem_iff_getElem?.mp hpr
  have hlen : j < job.pairs.length := (List.getElem?_eq_some_iff.mp hj).1
  have hthreads : 0 < threads cores job := by
    unfold threads
    omega
  obtain ⟨⟨k, i⟩, hk, hpos⟩ := @exists_shardPos _ _ (job.pairs.map ofPair) hthreads j
    (by rw [List.length_map]; exact hlen)
  have hat : job.At (shardPos (threads cores job) (job.pairs.map ofPair)) (k, i) pr := by
    rw [At, hpos]
    exact hj
  -- the thread that has the pair has a result for it
  have hmember : k < f.members.length := by
    rw [Shards.run_length hrun]
    exact hk
  have hget : f.members[k]? = some f.members[k] := List.getElem?_eq_getElem hmember
  have hcount : i < (fastPath job client showStatus maxRetries cores concurrency k).count := by
    have hitem := getElem?_shards (threads cores job) (job.pairs.map ofPair) (k, i)
    rw [hpos, Option.bind_some, List.getElem?_map, hj, threads, ← List.length_map ofPair] at hitem
    exact (List.getElem?_eq_some_iff.mp hitem).1
  obtain ⟨r, hr, hstatus⟩ :=
    (hfollows k _ hget).exists_result (hcomplete k _ hget) hcount
  exact hdone (k, i) pr r hat hstatus (hok _ (List.getElem_mem hmember) _ hr)

/-- Two moves by the default path, one after the other. -/
def slowMoves : List (Pool.Event Job.Event) := oneAfterAnother 0 ++ oneAfterAnother 1

/-- The same moves on two threads; one of them is answered with an error first. -/
def fastMoves : List (Nat × Pool.Event StageEvent) :=
  let got (b : UInt8) : StageEvent := .answer (.ok ⟨200, [b]⟩) true
  let gone : StageEvent := .answer (.ok ⟨204, []⟩) true
  [(0, .start), (1, .start), (1, .work 0 .go), (0, .work 0 .go),
    (1, .work 0 (.answer (.ok ⟨503, []⟩) false)), (0, .work 0 (got 1)), (1, .work 0 (got 2)),
    (1, .work 0 .go), (0, .work 0 .go), (0, .work 0 (.write [7])), (0, .work 0 .go),
    (1, .work 0 .go), (1, .work 0 gone), (0, .work 0 gone)]

end Run

end Rs5cmd.Fastpath
