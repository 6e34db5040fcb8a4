import Mathlib.Data.ZMod.Defs
import Replicore.Fetch.Basic
import Replicore.Proto.Framing

/-!
# Manifest pages

Both ends of the paging of a manifest: `manifest_from_peer` asks for the pages one after the other
(`fetch.rs`), `serve_manifest` answers from the manifest tables (`net.rs`).  The requester's loop is
`PageLoop.turn`; a responder answers each request as it likes, within a frame.

The loop compares the number of the chunks it has with the total of the page, both cut to 32 bits.
As long as the bound on the number of chunks leaves room for a page below `2 ^ 32`, every responder
is held to the bounds of the configuration and an honest one delivers the manifest; beyond it, a
responder can go past them (`manifest_paging_iff`).
-/

namespace Replicore

/-- Request for one page of a manifest. -/
structure ManifestReq where
  contentHash : Hash
  offset : U32
  count : U32

/-- Bytes of the encoding of a page. -/
def ManifestResp.encodedLen (resp : ManifestResp) : ℕ :=
  1 + 32 + varintLen resp.total.val + varintLen resp.chunks.length +
    (resp.chunks.map fun c => 32 + varintLen c.len.val).sum

/-- The sum of the lengths of the chunks. -/
def totalLen (chunks : List ChunkEntry) : ℕ := (chunks.map fun c => c.len.val).sum

/-- The requester after some pages: what has accumulated, and the result once there is one. -/
structure PageLoop where
  chunks : List ChunkEntry := []
  runningLen : ℕ := 0
  ended : Option (Except FetchError (Option Manifest)) := none

/-- A responder: its answer to the requests, which it may make depend on how many there have been.
Without an answer the connection has failed. -/
abbrev Responder := ℕ → ManifestReq → Option ManifestResp

namespace PageLoop

/-- The next request. -/
def request (s : PageLoop) (contentHash : Hash) : ManifestReq where
  contentHash := contentHash
  offset := Fin.ofNat _ s.chunks.length
  count := Fin.ofNat _ manifestPage

/-- The manifest is refused. -/
def fail (s : PageLoop) (msg : String) : PageLoop :=
  { s with ended := some (.error (.badManifest msg)) }

/-- One turn of the loop of `manifest_from_peer`. -/
def turn (limits : FetchLimits) (contentHash : Hash) (s : PageLoop) :
    Option ManifestResp → PageLoop
  | none => { s with ended := some (.error .noUsablePeer) }
  | some resp =>
    if resp.found = false then { s with ended := some (.ok none) }
    else if resp.contentHash ≠ contentHash then s.fail "wrong content_hash"
    else if maxManifestChunks limits < resp.total.val then
      s.fail "chunk count exceeds file-size cap"
    else if manifestPage < resp.chunks.length % 2 ^ 32 then s.fail "oversized page"
    else match checkPage limits s.runningLen resp.chunks with
      | .error e => { s with ended := some (.error e) }
      | .ok runningLen =>
        let s' := { s with chunks := s.chunks ++ resp.chunks, runningLen }
        if resp.total.val < s'.chunks.length % 2 ^ 32 then s'.fail "more chunks than total"
        else if s'.chunks.length % 2 ^ 32 = resp.total.val then
          { s' with ended := some (.ok (some { contentHash, chunks := s'.chunks })) }
        else if resp.chunks.length = 0 then s'.fail "empty page before total"
        else s'

/-- The requester after `n` turns. -/
def turns (limits : FetchLimits) (contentHash : Hash) (responder : Responder) : ℕ → PageLoop
  | 0 => {}
  | n + 1 =>
    let s := turns limits contentHash responder n
    if s.ended.isSome then s
    else s.turn limits contentHash (responder n (s.request contentHash))

/-- The answers of the first `n` turns. -/
def answers (limits : FetchLimits) (contentHash : Hash) (responder : Responder) :
    ℕ → List (Option ManifestResp)
  | 0 => []
  | n + 1 =>
    let s := turns limits contentHash responder n
    answers limits contentHash responder n ++
      if s.ended.isSome then [] else [responder n (s.request contentHash)]

end PageLoop

/-- Serve one page of a manifest. -/
def Store.serveManifest (st : Store) (req : ManifestReq) : ManifestResp :=
  match st.manifestFor req.contentHash with
  | some m =>
    let start := min req.offset.val m.chunks.length
    let count := min (min req.count.val manifestPage) (m.chunks.length - start)
    { found := true
      contentHash := req.contentHash
      total := Fin.ofNat _ m.chunks.length
      chunks := (m.chunks.drop start).take count }
  | none => { found := false, contentHash := req.contentHash, total := 0, chunks := [] }

theorem Store.manifestFor_contentHash {st : Store} {h : Hash} {m : Manifest}
    (hm : st.manifestFor h = some m) : m.contentHash = h := by
  unfold manifestFor at hm
  split at hm
  · cases hm
  · dsimp only at hm
    split_ifs at hm
    cases hm
    rfl

namespace PageLoop

variable {limits : FetchLimits} {contentHash : Hash} {responder : Responder}

/-- The turns are the turns of `manifestPages`. -/
theorem manifestPages_turn (s : PageLoop) (answer : Option ManifestResp)
    (pages : List (Option ManifestResp)) (hs : s.ended = none) :
    manifestPages limits contentHash s.chunks s.runningLen (answer :: pages) =
      ((s.turn limits contentHash answer).ended.getD
        (manifestPages limits contentHash (s.turn limits contentHash answer).chunks
          (s.turn limits contentHash answer).runningLen pages)) := by
  cases answer with
  | none => rfl
  | some resp =>
    simp only [manifestPages, turn, fail]
    by_cases hfound : resp.found = false
    · simp only [if_pos hfound]
      rfl
    simp only [if_neg hfound]
    by_cases hhash : resp.contentHash ≠ contentHash
    · simp only [if_pos hhash]
      rfl
    simp only [if_neg hhash]
    by_cases htotal : maxManifestChunks limits < resp.total.val
    · simp only [if_pos htotal]
      rfl
    simp only [if_neg htotal]
    by_cases hpage : manifestPage < resp.chunks.length % 2 ^ 32
    · simp only [if_pos hpage]
      rfl
    simp only [if_neg hpage]
    cases checkPage limits s.runningLen resp.chunks with
    | error e => rfl
    | ok runningLen =>
      dsimp only
      by_cases hmore : resp.total.val < (s.chunks ++ resp.chunks).length % 2 ^ 32
      · simp only [if_pos hmore]
        rfl
      simp only [if_neg hmore]
      by_cases hdone : (s.chunks ++ resp.chunks).length % 2 ^ 32 = resp.total.val
      · simp only [if_pos hdone]
        rfl
      simp only [if_neg hdone]
      by_cases hempty : resp.chunks.length = 0
      · simp only [if_pos hempty]
        rfl
      simp only [if_neg hempty]
      rw [hs]
      rfl

theorem manifestFromPeer_answers (n : ℕ) (pages : List (Option ManifestResp)) :
    manifestFromPeer limits contentHash (answers limits contentHash responder n ++ pages) =
      (turns limits contentHash responder n).ended.getD
        (manifestPages limits contentHash (turns limits contentHash responder n).chunks
          (turns limits contentHash responder n).runningLen pages) := by
  induction n generalizing pages with
  | zero => rfl
  | succ n ih =>
    cases hended : (turns limits contentHash responder n).ended with
    | none => simp [answers, turns, hended, ih, manifestPages_turn _ _ _ hended]
    | some r => simp [answers, turns, hended, ih]

/-! ### What one turn does -/

/-- The lengths of the chunks are within the configured bounds. -/
def InBounds (limits : FetchLimits) (chunks : List ChunkEntry) : Prop :=
  ∀ c ∈ chunks, 0 < c.len.val ∧ c.len.val ≤ limits.maxChunkBytes.val

@[simp] theorem totalLen_nil : totalLen [] = 0 := rfl

@[simp] theorem totalLen_cons (c : ChunkEntry) (cs : List ChunkEntry) :
    totalLen (c :: cs) = c.len.val + totalLen cs := by
  simp [totalLen]

@[simp] theorem totalLen_append (cs cs' : List ChunkEntry) :
    totalLen (cs ++ cs') = totalLen cs + totalLen cs' := by
  simp [totalLen]

/-- A page passes exactly if its chunks are in bounds and the file does not become too long,
provided the sum of the lengths cannot overflow. -/
theorem checkPage_ok_iff (hfile : limits.maxFileBytes.val < 2 ^ 63) {runningLen runningLen' : ℕ}
    (hlen : runningLen ≤ limits.maxFileBytes.val) {cs : List ChunkEntry} :
    checkPage limits runningLen cs = .ok runningLen' ↔
      InBounds limits cs ∧ runningLen' = runningLen + totalLen cs ∧
        runningLen' ≤ limits.maxFileBytes.val := by
  induction cs generalizing runningLen with
  | nil =>
    simp only [checkPage, Except.ok.injEq, InBounds, totalLen_nil, Nat.add_zero, List.not_mem_nil,
      false_imp_iff, implies_true, true_and]
    constructor
    · rintro rfl
      exact ⟨rfl, hlen⟩
    · exact fun h => h.1.symm
  | cons c cs ih =>
    have hc := c.len.isLt
    have hsum : (runningLen + c.len.val) % 2 ^ 64 = runningLen + c.len.val :=
      Nat.mod_eq_of_lt (by omega)
    have hzero : c.len = 0 ↔ c.len.val = 0 := Fin.ext_iff
    have hmax : limits.maxChunkBytes < c.len ↔ limits.maxChunkBytes.val < c.len.val := Iff.rfl
    simp only [checkPage, hsum, hzero, hmax]
    split_ifs with hbounds hlong
    · simp only [false_iff, not_and]
      intro hin
      have := hin c (List.mem_cons_self ..)
      omega
    · simp only [false_iff, not_and, totalLen_cons]
      intro _ hrunning
      omega
    · rw [ih (Nat.not_lt.1 hlong)]
      simp only [InBounds, List.forall_mem_cons, totalLen_cons, Nat.add_assoc]
      constructor
      · rintro ⟨hin, heq, hle⟩
        exact ⟨⟨by omega, hin⟩, heq, hle⟩
      · rintro ⟨⟨-, hin⟩, heq, hle⟩
        exact ⟨hin, heq, hle⟩

/-- What a turn does: it ends with what has accumulated as it was, or a page that passes its checks
is appended. -/
theorem turn_cases (limits : FetchLimits) (contentHash : Hash) (s : PageLoop)
    (answer : Option ManifestResp) (hs : s.ended = none) :
    (∃ r, s.turn limits contentHash answer = { s with ended := some r } ∧ ∀ m, r ≠ .ok (some m)) ∨
    ∃ resp runningLen ended, answer = some resp ∧
      resp.total.val ≤ maxManifestChunks limits ∧ resp.chunks.length % 2 ^ 32 ≤ manifestPage ∧
      checkPage limits s.runningLen resp.chunks = .ok runningLen ∧
      s.turn limits contentHash answer = ⟨s.chunks ++ resp.chunks, runningLen, ended⟩ ∧
      (ended = none ∧ (s.chunks ++ resp.chunks).length % 2 ^ 32 < resp.total.val ∧
          0 < resp.chunks.length ∨
        ended = some (.ok (some { contentHash, chunks := s.chunks ++ resp.chunks })) ∧
          (s.chunks ++ resp.chunks).length % 2 ^ 32 = resp.total.val ∨
        ∃ e, ended = some (.error e)) := by
  cases answer with
  | none => exact .inl ⟨_, rfl, nofun⟩
  | some resp =>
    simp only [turn, fail]
    by_cases hfound : resp.found = false
    · rw [if_pos hfound]
      exact .inl ⟨_, rfl, nofun⟩
    rw [if_neg hfound]
    by_cases hhash : resp.contentHash ≠ contentHash
    · rw [if_pos hhash]
      exact .inl ⟨_, rfl, nofun⟩
    rw [if_neg hhash]
    by_cases htotal : maxManifestChunks limits < resp.total.val
    · rw [if_pos htotal]
      exact .inl ⟨_, rfl, nofun⟩
    rw [if_neg htotal]
    by_cases hpage : manifestPage < resp.chunks.length % 2 ^ 32
    · rw [if_pos hpage]
      exact .inl ⟨_, rfl, nofun⟩
    rw [if_neg hpage]
    cases hcheck : checkPage limits s.runningLen resp.chunks with
    | error e => exact .inl ⟨_, rfl, nofun⟩
    | ok runningLen =>
      -- the page is appended, whatever comes of it
      refine .inr ⟨resp, runningLen, ?_⟩
      dsimp only
      by_cases hmore : resp.total.val < (s.chunks ++ resp.chunks).length % 2 ^ 32
      · rw [if_pos hmore]
        exact ⟨_, rfl, Nat.not_lt.1 htotal, Nat.not_lt.1 hpage, hcheck, rfl, .inr (.inr ⟨_, rfl⟩)⟩
      rw [if_neg hmore]
      by_cases hdone : (s.chunks ++ resp.chunks).length % 2 ^ 32 = resp.total.val
      · rw [if_pos hdone]
        exact ⟨_, rfl, Nat.not_lt.1 htotal, Nat.not_lt.1 hpage, hcheck, rfl,
          .inr (.inl ⟨rfl, hdone⟩)⟩
      rw [if_neg hdone]
      by_cases hempty : resp.chunks.length = 0
      · rw [if_pos hempty]
        exact ⟨_, rfl, Nat.not_lt.1 htotal, Nat.not_lt.1 hpage, hcheck, rfl, .inr (.inr ⟨_, rfl⟩)⟩
      rw [if_neg hempty]
      exact ⟨none, rfl, Nat.not_lt.1 htotal, Nat.not_lt.1 hpage, hcheck, by rw [hs],
        .inl ⟨rfl, by omega, Nat.pos_of_ne_zero hempty⟩⟩

/-! ### Any responder -/

/-- The answers of the responder fit into a frame. -/
def FitFrames (responder : Responder) : Prop :=
  ∀ n req resp, responder n req = some resp → resp.encodedLen ≤ maxFrame

/-- What holds after any number of turns: everything is within the bounds, and while the loop goes
on there are fewer chunks than the bound on their number. -/
structure Sound (limits : FetchLimits) (s : PageLoop) : Prop where
  inBounds : InBounds limits s.chunks
  running : s.runningLen = totalLen s.chunks
  fileLen : s.runningLen ≤ limits.maxFileBytes.val
  held : s.chunks.length ≤ maxManifestChunks limits + manifestPage
  goesOn : s.ended = none → s.chunks.length < maxManifestChunks limits
  returned : ∀ m, s.ended = some (.ok (some m)) → m.chunks = s.chunks

theorem Sound.init : Sound limits {} where
  inBounds := by simp [InBounds]
  running := rfl
  fileLen := Nat.zero_le _
  held := Nat.zero_le _
  goesOn _ := by simp [maxManifestChunks]
  returned := nofun

/-- A page in a frame has fewer entries than a 32-bit counter holds. -/
theorem length_lt_of_fits {resp : ManifestResp} (h : resp.encodedLen ≤ maxFrame) :
    resp.chunks.length < 2 ^ 32 := by
  have hsum (cs : List ChunkEntry) :
      cs.length ≤ (cs.map fun c => 32 + varintLen c.len.val).sum := by
    induction cs with
    | nil => exact Nat.zero_le _
    | cons c cs ih =>
      rw [List.length_cons, List.map_cons, List.sum_cons]
      omega
  have := hsum resp.chunks
  simp only [ManifestResp.encodedLen, maxFrame] at h
  omega

/-- The bound on the number of chunks leaves room for one page below `2 ^ 32`. -/
def Room (limits : FetchLimits) : Prop := maxManifestChunks limits + manifestPage ≤ 2 ^ 32

theorem Room.fileLt (h : Room limits) : limits.maxFileBytes.val < 2 ^ 63 := by
  simp only [Room, maxManifestChunks, manifestPage] at h
  omega

theorem Sound.turn (hroom : Room limits) {s : PageLoop} (h : Sound limits s) (hs : s.ended = none)
    {answer : Option ManifestResp} (hfits : ∀ resp ∈ answer, resp.encodedLen ≤ maxFrame) :
    Sound limits (s.turn limits contentHash answer) := by
  obtain ⟨r, hturn, hnone⟩ | ⟨resp, runningLen, ended, rfl, htotal, hpage, hcheck, hturn, hend⟩ :=
    turn_cases limits contentHash s answer hs
  · rw [hturn]
    exact { h with
      goesOn := nofun
      returned := fun m hm => absurd (Option.some.inj hm) (hnone m) }
  · obtain ⟨hin, hrunning, hfile⟩ := (checkPage_ok_iff hroom.fileLt h.fileLen).1 hcheck
    have hfew := h.goesOn hs
    rw [Nat.mod_eq_of_lt (length_lt_of_fits (hfits resp rfl))] at hpage
    have hlen : (s.chunks ++ resp.chunks).length ≤ s.chunks.length + manifestPage := by
      rw [List.length_append]
      omega
    have hmod : (s.chunks ++ resp.chunks).length % 2 ^ 32 = (s.chunks ++ resp.chunks).length := by
      refine Nat.mod_eq_of_lt ?_
      simp only [Room] at hroom
      omega
    rw [hturn]
    refine ⟨?_, ?_, hfile, ?_, ?_, ?_⟩
    · exact List.forall_mem_append.2 ⟨h.inBounds, hin⟩
    · rw [totalLen_append, hrunning, h.running]
    · exact hlen.trans (by omega)
    · rintro rfl
      obtain ⟨-, hless, -⟩ | ⟨hsome, -⟩ | ⟨e, hsome⟩ := hend
      · rw [hmod] at hless
        exact hless.trans_le htotal
      · cases hsome
      · cases hsome
    · rintro m rfl
      obtain ⟨hsome, -⟩ | ⟨hsome, -⟩ | ⟨e, hsome⟩ := hend
      · cases hsome
      · cases hsome
        rfl
      · cases hsome

theorem turns_succ (n : ℕ) (h : (turns limits contentHash responder n).ended = none) :
    turns limits contentHash responder (n + 1) =
      (turns limits contentHash responder n).turn limits contentHash
        (responder n ((turns limits contentHash responder n).request contentHash)) := by
  simp only [turns, h, Option.isSome_none, Bool.false_eq_true, if_false]

theorem turns_succ_of_ended {n : ℕ} (h : (turns limits contentHash responder n).ended.isSome) :
    turns limits contentHash responder (n + 1) = turns limits contentHash responder n := by
  simp only [turns, h, if_true]

theorem Sound.turns (hroom : Room limits) (hfits : FitFrames responder) (n : ℕ) :
    Sound limits (turns limits contentHash responder n) := by
  induction n with
  | zero => exact .init
  | succ n ih =>
    by_cases hended : (PageLoop.turns limits contentHash responder n).ended = none
    · rw [turns_succ n hended]
      exact ih.turn hroom hended fun resp hresp => hfits n _ resp hresp
    · rw [turns_succ_of_ended (Option.isSome_iff_ne_none.2 hended)]
      exact ih

/-- Every turn after which the loop goes on has added a chunk. -/
theorem turns_length (n : ℕ) (h : (turns limits contentHash responder n).ended = none) :
    n ≤ (turns limits contentHash responder n).chunks.length := by
  induction n with
  | zero => exact Nat.zero_le _
  | succ n ih =>
    have hended : (turns limits contentHash responder n).ended = none := by
      by_contra hne
      rw [turns_succ_of_ended (Option.isSome_iff_ne_none.2 hne)] at h
      exact hne h
    have hn := ih hended
    rw [turns_succ n hended] at h ⊢
    obtain ⟨r, hturn, -⟩ | ⟨resp, runningLen, ended, -, -, -, -, hturn, hend⟩ :=
      turn_cases limits contentHash (turns limits contentHash responder n) (responder n _) hended
    · rw [hturn] at h
      cases h
    · rw [hturn] at h ⊢
      obtain ⟨-, -, hpos⟩ | ⟨hsome, -⟩ | ⟨e, hsome⟩ := hend
      · rw [List.length_append]
        omega
      · cases hsome.symm.trans h
      · cases hsome.symm.trans h

/-- Whatever the responder does, the loop ends. -/
theorem turns_end (hroom : Room limits) (hfits : FitFrames responder) :
    ∃ n, (turns limits contentHash responder n).ended.isSome := by
  by_contra hnever
  have hnone (n : ℕ) : (turns limits contentHash responder n).ended = none :=
    Option.not_isSome_iff_eq_none.1 (not_exists.1 hnever n)
  have hmany := turns_length (maxManifestChunks limits) (hnone _)
  have hfew := (Sound.turns hroom hfits (maxManifestChunks limits)).goesOn (hnone _)
  exact absurd (hmany.trans_lt hfew) (lt_irrefl _)

/-! ### An honest responder -/

/-- The responder that serves from its manifest tables. -/
def honest (st : Store) : Responder := fun _ req => some (st.serveManifest req)

theorem varintLen_u32 (n : U32) : varintLen n.val ≤ 5 := by
  have := n.isLt
  unfold varintLen
  split_ifs <;> omega

/-- A page of at most `manifestPage` entries fits into a frame. -/
theorem encodedLen_le {resp : ManifestResp} (h : resp.chunks.length ≤ manifestPage) :
    resp.encodedLen ≤ maxFrame := by
  have hsum (cs : List ChunkEntry) :
      (cs.map fun c => 32 + varintLen c.len.val).sum ≤ 37 * cs.length := by
    induction cs with
    | nil => exact Nat.le_refl _
    | cons c cs ih =>
      have := varintLen_u32 c.len
      rw [List.length_cons, List.map_cons, List.sum_cons]
      omega
  have hentries := hsum resp.chunks
  have htotal := varintLen_u32 resp.total
  have hcount : varintLen resp.chunks.length ≤ 9 := by
    unfold varintLen
    split_ifs <;> omega
  simp only [ManifestResp.encodedLen, maxFrame, manifestPage] at h ⊢
  omega

theorem honest_fitFrames (st : Store) : FitFrames (honest st) := by
  intro n req resp hresp
  cases hresp
  refine encodedLen_le ?_
  unfold Store.serveManifest
  split
  · rw [List.length_take]
    omega
  · exact Nat.zero_le _

theorem le_totalLen {cs : List ChunkEntry} (h : ∀ c ∈ cs, 4096 ≤ c.len.val) :
    4096 * cs.length ≤ totalLen cs := by
  induction cs with
  | nil => exact Nat.zero_le _
  | cons c cs ih =>
    have hc := h c (List.mem_cons_self ..)
    have hcs := ih fun d hd => h d (List.mem_cons_of_mem _ hd)
    rw [List.length_cons, totalLen_cons]
    omega

/-- A manifest that all chunks but the last divide into pieces of at least 4096 bytes has fewer
chunks than the bound. -/
theorem length_lt_maxManifestChunks {m : Manifest}
    (hlen : totalLen m.chunks ≤ limits.maxFileBytes.val)
    (hmin : ∀ c ∈ m.chunks.dropLast, 4096 ≤ c.len.val) :
    m.chunks.length < maxManifestChunks limits := by
  have hinit := le_totalLen hmin
  have hle : totalLen m.chunks.dropLast ≤ totalLen m.chunks := by
    rcases List.eq_nil_or_concat m.chunks with hnil | ⟨cs, c, hcs⟩
    · simp [hnil]
    · rw [hcs, List.concat_eq_append, List.dropLast_concat, totalLen_append]
      exact Nat.le_add_right _ _
  rw [List.length_dropLast] at hinit
  simp only [maxManifestChunks]
  omega

section Honest

variable {st : Store} {m : Manifest}

/-- The loop after the first `j` chunks of the manifest. -/
def partOf (m : Manifest) (j : ℕ) : PageLoop where
  chunks := m.chunks.take j
  runningLen := totalLen (m.chunks.take j)

/-- The answer to the request after `j` chunks is the next page. -/
theorem serveManifest_partOf (hm : st.manifestFor contentHash = some m)
    (hlen : m.chunks.length < 2 ^ 32) {j : ℕ} (hj : j ≤ m.chunks.length) :
    st.serveManifest ((partOf m j).request contentHash) =
      { found := true
        contentHash
        total := Fin.ofNat _ m.chunks.length
        chunks := (m.chunks.drop j).take manifestPage } := by
  have hoffset : ((partOf m j).request contentHash).offset.val = j := by
    simp only [request, partOf, List.length_take, Nat.min_eq_left hj, Fin.ofNat_eq_cast,
      Fin.val_natCast]
    exact Nat.mod_eq_of_lt (by omega)
  have hcount : ((partOf m j).request contentHash).count.val = manifestPage := rfl
  have hm' : st.manifestFor ((partOf m j).request contentHash).contentHash = some m := hm
  simp only [Store.serveManifest, hm', hoffset, hcount, Nat.min_eq_left hj, Nat.min_self]
  congr 1
  -- the page ends at the end of the manifest
  have hend : ((m.chunks.drop j).take manifestPage).length ≤ m.chunks.length - j := by
    rw [List.length_take, List.length_drop]
    exact Nat.min_le_right _ _
  rw [Nat.min_comm, ← List.take_take, List.take_of_length_le hend]

/-- One turn against the honest responder: the next page is appended, and the loop ends with the
manifest at its last page. -/
theorem turn_partOf (hroom : Room limits) (hm : st.manifestFor contentHash = some m)
    (hin : InBounds limits m.chunks) (hfile : totalLen m.chunks ≤ limits.maxFileBytes.val)
    (hlen : m.chunks.length < maxManifestChunks limits) {j : ℕ} (hj : j < m.chunks.length ∨ j = 0) :
    (partOf m j).turn limits contentHash (some (st.serveManifest ((partOf m j).request contentHash))) =
      if j + manifestPage < m.chunks.length then partOf m (j + manifestPage)
      else { chunks := m.chunks, runningLen := totalLen m.chunks, ended := some (.ok (some m)) } := by
  have hsmall : m.chunks.length < 2 ^ 32 := by
    simp only [Room] at hroom
    omega
  have hle : j ≤ m.chunks.length := by omega
  have hpage : ((m.chunks.drop j).take manifestPage).length % 2 ^ 32 ≤ manifestPage := by
    rw [List.length_take]
    exact (Nat.mod_le _ _).trans (Nat.min_le_left _ _)
  have happend : m.chunks.take j ++ (m.chunks.drop j).take manifestPage =
      m.chunks.take (j + manifestPage) := List.take_add.symm
  have htotal : ((Fin.ofNat (2 ^ 32) m.chunks.length : U32)).val = m.chunks.length :=
    Nat.mod_eq_of_lt hsmall
  have hhash : m.contentHash = contentHash := Store.manifestFor_contentHash hm
  have hcheck : checkPage limits (partOf m j).runningLen ((m.chunks.drop j).take manifestPage) =
      .ok (totalLen (m.chunks.take (j + manifestPage))) := by
    have hpart (k : ℕ) : totalLen (m.chunks.take k) ≤ totalLen m.chunks := by
      conv_rhs => rw [← List.take_append_drop k m.chunks, totalLen_append]
      exact Nat.le_add_right _ _
    refine (checkPage_ok_iff hroom.fileLt ((hpart j).trans hfile)).2 ⟨fun c hc => ?_, ?_, ?_⟩
    · exact hin c (List.mem_of_mem_drop (List.mem_of_mem_take hc))
    · simp only [← happend, totalLen_append]
    · exact (hpart _).trans hfile
  rw [serveManifest_partOf hm hsmall hle]
  have hchunks : (partOf m j).chunks ++ (m.chunks.drop j).take manifestPage =
      m.chunks.take (j + manifestPage) := happend
  have hmod : (m.chunks.take (j + manifestPage)).length % 2 ^ 32 =
      min (j + manifestPage) m.chunks.length := by
    rw [List.length_take]
    exact Nat.mod_eq_of_lt (by omega)
  simp only [turn, Bool.true_eq_false, if_false, ne_eq, not_true, htotal, Nat.not_lt.2 hlen.le,
    Nat.not_lt.2 hpage, hcheck, hchunks, hmod]
  by_cases hmore : j + manifestPage < m.chunks.length
  · have hfull : ((m.chunks.drop j).take manifestPage).length ≠ 0 := by
      rw [List.length_take, List.length_drop, manifestPage]
      omega
    rw [if_pos hmore, Nat.min_eq_left hmore.le, if_neg (by omega), if_neg (by omega),
      if_neg hfull]
    rfl
  · rw [if_neg hmore, Nat.min_eq_right (Nat.not_lt.1 hmore), if_neg (lt_irrefl _), if_pos rfl,
      List.take_of_length_le (Nat.not_lt.1 hmore), ← hhash]

/-- Against the honest responder the loop is on its way through the manifest until it has it. -/
theorem turns_honest (hroom : Room limits) (hm : st.manifestFor contentHash = some m)
    (hin : InBounds limits m.chunks) (hfile : totalLen m.chunks ≤ limits.maxFileBytes.val)
    (hlen : m.chunks.length < maxManifestChunks limits) (n : ℕ) :
    (∃ j, (j < m.chunks.length ∨ j = 0) ∧
        turns limits contentHash (honest st) n = partOf m j) ∨
      (turns limits contentHash (honest st) n).ended = some (.ok (some m)) := by
  induction n with
  | zero => exact .inl ⟨0, .inr rfl, rfl⟩
  | succ n ih =>
    obtain ⟨j, hj, hpart⟩ | hended := ih
    · have hnone : (turns limits contentHash (honest st) n).ended = none := by rw [hpart]; rfl
      rw [turns_succ n hnone, hpart, honest, turn_partOf hroom hm hin hfile hlen hj]
      split_ifs with hmore
      · exact .inl ⟨j + manifestPage, .inl hmore, rfl⟩
      · exact .inr rfl
    · rw [turns_succ_of_ended (by rw [hended]; rfl)]
      exact .inr hended

end Honest

/-! ### A responder that goes past the bound -/

/-- A chunk of one byte. -/
def oneByte : ChunkEntry := ⟨0, 1⟩

/-- Pages of one-byte chunks, with as large a total as passes. -/
def flood (limits : FetchLimits) : Responder := fun _ req => some
  { found := true
    contentHash := req.contentHash
    total := Fin.ofNat _ (min (maxManifestChunks limits) (2 ^ 32 - 1))
    chunks := List.replicate manifestPage oneByte }

theorem checkPage_ones (hmax : 0 < limits.maxChunkBytes.val) {runningLen k : ℕ}
    (h : runningLen + k ≤ limits.maxFileBytes.val) :
    checkPage limits runningLen (List.replicate k oneByte) = .ok (runningLen + k) := by
  induction k generalizing runningLen with
  | zero => rfl
  | succ k ih =>
    have hfile := limits.maxFileBytes.isLt
    have hsum : (runningLen + oneByte.len.val) % 2 ^ 64 = runningLen + 1 :=
      Nat.mod_eq_of_lt (show runningLen + 1 < 2 ^ 64 by omega)
    have hbounds : ¬ (oneByte.len = 0 ∨ limits.maxChunkBytes < oneByte.len) := by
      rintro (h0 | hlt)
      · cases h0
      · have : limits.maxChunkBytes.val < 1 := hlt
        omega
    rw [List.replicate_succ, checkPage, hsum, if_neg hbounds, if_neg (by omega),
      ih (by omega)]
    congr 1
    omega

/-- Without room for a page the flood goes on until the file-size cap is reached. -/
theorem turns_flood (hroom : ¬ Room limits) (hmax : 0 < limits.maxChunkBytes.val) {n : ℕ}
    (hn : manifestPage * n ≤ limits.maxFileBytes.val) :
    turns limits contentHash (flood limits) n =
      { chunks := List.replicate (manifestPage * n) oneByte, runningLen := manifestPage * n } := by
  induction n with
  | zero => rfl
  | succ n ih =>
    rw [Nat.mul_succ] at hn
    have hprev := ih (by omega)
    have htotal : (Fin.ofNat (2 ^ 32) (min (maxManifestChunks limits) (2 ^ 32 - 1)) : U32).val =
        min (maxManifestChunks limits) (2 ^ 32 - 1) := Nat.mod_eq_of_lt (by omega)
    -- the number of the chunks, cut to 32 bits, is a multiple of the page size
    have hbelow : (manifestPage * (n + 1)) % 2 ^ 32 <
        min (maxManifestChunks limits) (2 ^ 32 - 1) := by
      simp only [Room, manifestPage] at hroom ⊢
      omega
    have hlength : (List.replicate (manifestPage * n) oneByte ++
        List.replicate manifestPage oneByte).length = manifestPage * (n + 1) := by
      rw [List.length_append, List.length_replicate, List.length_replicate, Nat.mul_succ]
    have hpage : ¬ manifestPage < (List.replicate manifestPage oneByte).length % 2 ^ 32 := by
      rw [List.length_replicate]
      decide
    rw [turns_succ n (by rw [hprev]), hprev]
    simp only [flood, turn, request, Bool.true_eq_false, if_false, ne_eq, not_true, htotal,
      hpage, checkPage_ones hmax hn, hlength]
    rw [if_neg (Nat.not_lt.2 (Nat.min_le_left _ _)), if_neg (Nat.not_lt.2 hbelow.le),
      if_neg hbelow.ne, if_neg (by rw [List.length_replicate]; decide),
      List.replicate_append_replicate, Nat.mul_succ]

theorem flood_fitFrames : FitFrames (flood limits) := by
  intro n req resp hresp
  cases hresp
  exact encodedLen_le (by rw [List.length_replicate])

/-! ### Bounded and exact -/

/-- Paging against any responder whose answers fit into frames: the loop ends, never holds more than
the bound on the number of chunks and one page, and returns manifests within the configured bounds;
and from the tables of an honest responder it returns the manifest that is stored there. -/
structure PagingHolds (limits : FetchLimits) : Prop where
  ends : ∀ contentHash responder, FitFrames responder →
    ∃ n, (turns limits contentHash responder n).ended.isSome
  held : ∀ contentHash responder, FitFrames responder → ∀ n,
    (turns limits contentHash responder n).chunks.length ≤ maxManifestChunks limits + manifestPage
  returned : ∀ contentHash responder, FitFrames responder → ∀ n m,
    (turns limits contentHash responder n).ended = some (.ok (some m)) →
      InBounds limits m.chunks ∧ totalLen m.chunks ≤ limits.maxFileBytes.val
  exact : ∀ (st : Store) contentHash m, st.manifestFor contentHash = some m →
    InBounds limits m.chunks → totalLen m.chunks ≤ limits.maxFileBytes.val →
    (∀ c ∈ m.chunks.dropLast, 4096 ≤ c.len.val) →
      ∃ n, manifestFromPeer limits contentHash (answers limits contentHash (honest st) n) =
        .ok (some m)

theorem pagingHolds_of_room (hroom : Room limits) : PagingHolds limits where
  ends _ _ hfits := turns_end hroom hfits
  held _ _ hfits n := (Sound.turns hroom hfits n).held
  returned contentHash responder hfits n m hm := by
    have h : Sound limits (turns limits contentHash responder n) := Sound.turns hroom hfits n
    rw [h.returned m hm]
    exact ⟨h.inBounds, h.running ▸ h.fileLen⟩
  exact st contentHash m hm hin hfile hmin := by
    have hlen := length_lt_maxManifestChunks hfile hmin
    obtain ⟨n, hn⟩ : ∃ n, (turns limits contentHash (honest st) n).ended.isSome :=
      turns_end hroom (honest_fitFrames st)
    refine ⟨n, ?_⟩
    have hdone : (turns limits contentHash (honest st) n).ended = some (.ok (some m)) := by
      obtain ⟨j, -, hpart⟩ | hended := turns_honest hroom hm hin hfile hlen n
      · rw [hpart] at hn
        cases hn
      · exact hended
    rw [← List.append_nil (answers limits contentHash (honest st) n), manifestFromPeer_answers, hdone]
    rfl

theorem not_pagingHolds (hroom : ¬ Room limits) (hmax : 0 < limits.maxChunkBytes.val) :
    ¬ PagingHolds limits := by
  intro h
  have hcap : manifestPage * (limits.maxFileBytes.val / manifestPage) ≤ limits.maxFileBytes.val :=
    Nat.mul_div_le _ _
  have hheld := h.held 0 (flood limits) flood_fitFrames (limits.maxFileBytes.val / manifestPage)
  rw [turns_flood hroom hmax hcap, List.length_replicate] at hheld
  simp only [Room, maxManifestChunks, manifestPage] at hroom hheld
  omega

/-- **Manifest paging is bounded and exact as long as the bound on the number of chunks leaves room
for a page below `2 ^ 32`**, and not otherwise: the comparison with the total is made in 32 bits.
Chunks of 4096 bytes at least are allowed by every configuration. -/
theorem manifest_paging_iff (limits : FetchLimits) (hconfig : 4096 ≤ limits.maxChunkBytes.val) :
    PagingHolds limits ↔ maxManifestChunks limits + manifestPage ≤ 2 ^ 32 := by
  constructor
  · intro h
    by_contra hroom
    exact not_pagingHolds hroom (by omega) h
  · exact pagingHolds_of_room

/-- Files of up to 1 TiB in chunks of up to 1 MiB. -/
theorem manifest_paging_tebibyte : PagingHolds ⟨2 ^ 20, 2 ^ 40⟩ :=
  (manifest_paging_iff ⟨2 ^ 20, 2 ^ 40⟩ (by decide)).2 (by decide)

/-- **With files of up to 32 TiB a responder floods the requester.** -/
theorem manifest_paging_flooded : ¬ PagingHolds ⟨2 ^ 20, 2 ^ 45⟩ :=
  not_pagingHolds (by unfold Room; decide) (by decide)

end PageLoop

end Replicore
