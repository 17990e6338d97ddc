import NginxMedia.HttpRequest
import NginxMedia.UrlReference

/-! The segment URLs of an HLS pull reader in `ngx_media_hls_pull.c`: the base is cut from the
playlist URL when the reader is opened, an entry is put behind it, and the result is what the
HTTP client is asked for. -/
namespace HlsPullUrl

open ByteString MediaTypes UrlReference HttpRequest CString

def urlMax : ℕ := 4096

/-- The base that `ngx_media_hls_pull_open()` cuts from the playlist URL. -/
def baseOf (url : List UInt8) : List UInt8 :=
  match strrchr url 47 with
  | some slash => if slash > 7 then url.take (slash + 1) else []
  | none => []

def segmentUrl (base name : List UInt8) : Option (List UInt8) :=
  if name.length ≥ urlMax then none
  else if name.length > 7 ∧ name.take 7 = ascii "http://" then some name
  else if base.length > urlMax - name.length - 1 then none
  else some (base ++ name)

structure HttpUrl (url : List UInt8) : Prop where
  scheme : ∃ scheme, schemeOf url = some scheme ∧ authority (url.drop scheme.length) ≠ []
  text : (0 : UInt8) ∉ url

/-- The entries the reader is meant to follow. -/
def Followed (ref : List UInt8) : Prop :=
  (schemeOf ref).isSome ∨ AbsolutePath ref ∨ RelativePath ref

structure Served (url ref : List UInt8) : Prop where
  resolved : segmentUrl (baseOf url) ref = some (resolve url ref)
  requested : ∀ built parts, segmentUrl (baseOf url) ref = some built →
    HttpRequest.split built = .ok parts → ∃ r, HttpRequest.get built = .ok r ∧ r.parts = parts

def hierOf (url : List UInt8) : List UInt8 := url.drop ((schemeOf url).getD []).length

def Resolvable (url ref : List UInt8) : Prop :=
  match schemeOf ref with
  | some scheme =>
    -- a lower-case `http://` is recognised, any other URL survives an empty base
    ((7 < ref.length ∧ ref.take 7 = http) ∨ (47 : UInt8) ∉ url.drop 8) ∧
      Straight (pathOf (behindAuthority (ref.drop scheme.length))) ∧ ref.length < urlMax
  | none =>
    ref.head? ≠ some 47 ∧ pathOf (behindAuthority (hierOf url)) ≠ [] ∧
      (47 : UInt8) ∉ tailOf (behindAuthority (hierOf url)) ∧
      Straight (merge (pathOf (behindAuthority (hierOf url))) (pathOf ref)) ∧
      ((schemeOf url).getD []).length + (authority (hierOf url)).length +
        (directory (pathOf (behindAuthority (hierOf url)))).length + ref.length < urlMax

def Requestable (url : List UInt8) : Prop :=
  ∀ parts, HttpRequest.split url = .ok parts → 45 + variableLength parts < headerSize

theorem baseOf_last {a b : List UInt8} (h : (0 : UInt8) ∉ a ++ 47 :: b) (hb : (47 : UInt8) ∉ b) :
    baseOf (a ++ 47 :: b) = if a.length > 7 then a ++ [47] else [] := by
  unfold baseOf
  rw [strrchr_last h hb]
  dsimp only
  congr 1
  rw [List.take_append, List.take_of_length_le (by omega), Nat.add_sub_cancel_left]
  rfl

variable {url ref scheme : List UInt8}

theorem hierOf_eq (h : schemeOf url = some scheme) : hierOf url = url.drop scheme.length := by
  unfold hierOf
  rw [h, Option.getD_some]

theorem url_parts (h : schemeOf url = some scheme) :
    url = scheme ++ authority (hierOf url) ++
      (pathOf (behindAuthority (hierOf url)) ++ tailOf (behindAuthority (hierOf url))) := by
  rw [pathOf_append_tailOf, List.append_assoc, authority_append_behind, hierOf_eq h,
    schemeOf_prefix h]

theorem authority_slashless (hier : List UInt8) : (47 : UInt8) ∉ authority hier := by
  intro hmem
  have := List.mem_takeWhile_imp hmem
  exact absurd this (by decide)

theorem tail_head (hier : List UInt8) : (tailOf hier).head? ≠ some 47 := by
  intro hhead
  have hne : tailOf hier ≠ [] := fun hnil => by
    rw [hnil] at hhead
    cases hhead
  have hstop := List.head_dropWhile_not inPath hne
  rw [List.head?_eq_some_head hne, Option.some_inj] at hhead
  have hslash : (List.dropWhile inPath hier).head hne = 47 := hhead
  rw [hslash] at hstop
  exact absurd hstop (by decide)

theorem baseOf_eq (h : schemeOf url = some scheme) (hhost : authority (hierOf url) ≠ [])
    (htext : (0 : UInt8) ∉ url) :
    baseOf url =
      if 47 ∈ tailOf (behindAuthority (hierOf url)) then
        scheme ++ authority (hierOf url) ++
          (pathOf (behindAuthority (hierOf url)) ++
            directory (tailOf (behindAuthority (hierOf url))))
      else if pathOf (behindAuthority (hierOf url)) ≠ [] then
        scheme ++ authority (hierOf url) ++ directory (pathOf (behindAuthority (hierOf url)))
      else [] := by
  have hparts := url_parts h
  obtain ⟨hlen, init, hinit⟩ := schemeOf_last h
  have hpath := pathOf_behind (hierOf url)
  have hpos := List.length_pos_of_ne_nil hhost
  have hslashless := authority_slashless (hierOf url)
  generalize authority (hierOf url) = host at hparts hhost hpos hslashless ⊢
  generalize pathOf (behindAuthority (hierOf url)) = path at hparts hpath ⊢
  generalize tailOf (behindAuthority (hierOf url)) = tail at hparts ⊢
  split_ifs with htail hne
  · obtain ⟨a, b, rfl, hb⟩ := exists_last_slash htail
    have hurl : url = scheme ++ host ++ (path ++ a) ++ 47 :: b := by
      rw [hparts]
      simp only [List.append_assoc]
    rw [hurl] at htext ⊢
    rw [baseOf_last htext hb, if_pos, directory_last hb]
    · simp only [List.append_assoc]
    · simp only [List.length_append]
      omega
  · obtain ⟨a, b, rfl, hb, hdir, -⟩ := directory_path hpath hne
    have hurl : url = scheme ++ host ++ a ++ 47 :: (b ++ tail) := by
      rw [hparts]
      simp only [List.append_assoc, List.cons_append]
    have hb' : (47 : UInt8) ∉ b ++ tail := fun hm => (List.mem_append.mp hm).elim hb htail
    rw [hurl] at htext ⊢
    rw [baseOf_last htext hb', if_pos, hdir]
    · simp only [List.append_assoc]
    · simp only [List.length_append]
      omega
  · -- the last slash is the one in front of the host
    rw [not_not] at hne
    have hurl : url = init ++ 47 :: (host ++ tail) := by
      rw [hparts, hne, hinit]
      simp only [List.append_assoc, List.nil_append, List.cons_append]
    have hb' : (47 : UInt8) ∉ host ++ tail := fun hm =>
      (List.mem_append.mp hm).elim hslashless htail
    rw [hinit, List.length_append, List.length_singleton] at hlen
    rw [hurl] at htext ⊢
    rw [baseOf_last htext hb', if_neg (by omega)]

theorem baseOf_eq_nil_iff (h : schemeOf url = some scheme) (htext : (0 : UInt8) ∉ url) :
    baseOf url = [] ↔ (47 : UInt8) ∉ url.drop 8 := by
  obtain ⟨-, init, hinit⟩ := schemeOf_last h
  have hmem : (47 : UInt8) ∈ url := by
    rw [← schemeOf_prefix h, hinit]
    simp
  obtain ⟨a, b, rfl, hb⟩ := exists_last_slash hmem
  rw [baseOf_last htext hb]
  split_ifs with hfar
  · refine iff_of_false (by simp) ?_
    rw [not_not, List.drop_append_of_le_length (by omega)]
    simp
  · refine iff_of_true rfl fun hin => hb ?_
    have hsplit : (a ++ 47 :: b).drop 8 = b.drop (8 - a.length - 1) := by
      rw [List.drop_append, List.drop_of_length_le (by omega), List.nil_append]
      obtain ⟨n, hn⟩ : ∃ n, 8 - a.length = n + 1 := ⟨7 - a.length, by omega⟩
      rw [hn, List.drop_succ_cons, Nat.add_sub_cancel]
    rw [hsplit] at hin
    exact List.mem_of_mem_drop hin

theorem http_schemeOf (h : ref.take 7 = ascii "http://") : schemeOf ref = some (ref.take 7) := by
  unfold schemeOf
  rw [if_pos]
  rw [h]
  decide

theorem segmentUrl_behind {base : List UInt8}
    (h : ¬ (7 < ref.length ∧ ref.take 7 = http)) : segmentUrl base ref =
      if base.length + ref.length < urlMax then some (base ++ ref) else none := by
  have hno : ¬ (ref.length > 7 ∧ ref.take 7 = ascii "http://") := h
  unfold segmentUrl
  rw [if_neg hno]
  unfold urlMax
  split_ifs <;> first | rfl | omega

theorem segmentUrl_recognised {base : List UInt8} (h : 7 < ref.length ∧ ref.take 7 = http) :
    segmentUrl base ref = if ref.length < urlMax then some ref else none := by
  have hyes : ref.length > 7 ∧ ref.take 7 = ascii "http://" := h
  unfold segmentUrl
  rw [if_pos hyes]
  split_ifs <;> first | rfl | omega

theorem some_ite_iff {c : Prop} [Decidable c] {x y : List UInt8} :
    (if c then some x else none) = some y ↔ c ∧ x = y := by
  split_ifs with hc <;> simp [hc]

theorem resolve_absolute (h : schemeOf ref = some scheme) :
    (resolve url ref = ref ↔ Straight (pathOf (behindAuthority (ref.drop scheme.length)))) ∧
      (resolve url ref).length ≤ ref.length := by
  have hsplit : ref = scheme ++ authority (ref.drop scheme.length) ++
      pathOf (behindAuthority (ref.drop scheme.length)) ++
      tailOf (behindAuthority (ref.drop scheme.length)) := by
    rw [List.append_assoc, pathOf_append_tailOf, List.append_assoc, authority_append_behind,
      schemeOf_prefix h]
  have hpath := pathOf_behind (ref.drop scheme.length)
  have hresolve : resolve url ref = settle (scheme ++ authority (ref.drop scheme.length))
      (pathOf (behindAuthority (ref.drop scheme.length)))
      (tailOf (behindAuthority (ref.drop scheme.length))) := by
    rw [resolve, h]
  rw [hresolve, settle]
  generalize pathOf (behindAuthority (ref.drop scheme.length)) = path at hsplit hpath ⊢
  generalize tailOf (behindAuthority (ref.drop scheme.length)) = tail at hsplit ⊢
  generalize scheme ++ authority (ref.drop scheme.length) = root at hsplit ⊢
  rw [hsplit]
  constructor
  · rw [List.append_left_inj, List.append_right_inj, removeDotSegments_eq_iff hpath]
  · simp only [List.length_append]
    have := removeDotSegments_length_le path
    omega

theorem resolve_relative (h : schemeOf ref = none) (hurl : schemeOf url = some scheme) :
    resolve url ref = settle (scheme ++ authority (hierOf url))
      (if ref.head? = some 47 then pathOf ref
       else merge (pathOf (behindAuthority (hierOf url))) (pathOf ref)) (tailOf ref) := by
  rw [resolve, h, hierOf_eq hurl, hurl]
  rfl

theorem resolve_scheme (h : schemeOf ref = none) (hurl : schemeOf url = some scheme) :
    schemeOf (resolve url ref) = some scheme := by
  rw [resolve_relative h hurl, settle, List.append_assoc, List.append_assoc]
  exact schemeOf_append hurl _

theorem not_resolved_of_empty (h : schemeOf ref = none) (hurl : schemeOf url = some scheme) :
    ¬ ref = resolve url ref := by
  intro heq
  have hscheme := resolve_scheme h hurl
  rw [← heq, h] at hscheme
  cases hscheme

theorem directory_tail_length {hier : List UInt8} (h : (47 : UInt8) ∈ tailOf hier) :
    2 ≤ (directory (tailOf hier)).length := by
  have hhead := tail_head hier
  obtain ⟨a, b, hab, hb⟩ := exists_last_slash h
  rw [hab] at hhead ⊢
  rw [directory_last hb, List.length_append, List.length_singleton]
  cases a with
  | nil => exact absurd rfl hhead
  | cons x a =>
    rw [List.length_cons]
    omega

theorem merge_length_le (base path : List UInt8) :
    (merge base path).length ≤ base.length + 1 + path.length := by
  unfold merge
  split_ifs
  · rw [List.length_cons]
    omega
  · have := directory_length_le base
    rw [List.length_append]
    omega

theorem absolutePath_not_resolved (hscheme : schemeOf url = some scheme)
    (hhost : authority (hierOf url) ≠ []) (htext : (0 : UInt8) ∉ url)
    (href : schemeOf ref = none) (hslash : ref.head? = some 47) :
    ¬ baseOf url ++ ref = resolve url ref := by
  have hres := resolve_relative href hscheme
  have hempty := not_resolved_of_empty href hscheme
  have hbase := baseOf_eq hscheme hhost htext
  have hpath := pathOf_behind (hierOf url)
  have hsplit := pathOf_append_tailOf ref
  have hremove := removeDotSegments_length_le (pathOf ref)
  have hlen := congrArg List.length hsplit
  rw [if_pos hslash, settle] at hres
  intro heq
  split_ifs at hbase with htail hne
  · have htwo := directory_tail_length htail
    have hlong := congrArg List.length heq
    rw [hbase, hres] at hlong
    simp only [List.length_append] at hlong hlen
    omega
  · obtain ⟨a, b, -, -, hdir, -⟩ := directory_path hpath hne
    have hlong := congrArg List.length heq
    rw [hbase, hres, hdir] at hlong
    simp only [List.length_append, List.length_singleton] at hlong hlen
    omega
  · rw [hbase, List.nil_append] at heq
    exact hempty heq

theorem relativePath_resolved_iff (hscheme : schemeOf url = some scheme)
    (hhost : authority (hierOf url) ≠ []) (htext : (0 : UInt8) ∉ url)
    (href : schemeOf ref = none) (hslash : ref.head? ≠ some 47) :
    ((baseOf url).length + ref.length < urlMax ∧ baseOf url ++ ref = resolve url ref) ↔
      pathOf (behindAuthority (hierOf url)) ≠ [] ∧
        (47 : UInt8) ∉ tailOf (behindAuthority (hierOf url)) ∧
        Straight (merge (pathOf (behindAuthority (hierOf url))) (pathOf ref)) ∧
        scheme.length + (authority (hierOf url)).length +
          (directory (pathOf (behindAuthority (hierOf url)))).length + ref.length < urlMax := by
  have hres := resolve_relative href hscheme
  have hempty := not_resolved_of_empty href hscheme
  have hbase := baseOf_eq hscheme hhost htext
  have hpath := pathOf_behind (hierOf url)
  have hsplit := pathOf_append_tailOf ref
  rw [if_neg hslash, settle] at hres
  split_ifs at hbase with htail hne
  · -- the query or the fragment is part of the base
    refine iff_of_false ?_ fun h => h.2.1 htail
    rintro ⟨-, heq⟩
    have htwo := directory_tail_length htail
    have hremove := removeDotSegments_length_le
      (merge (pathOf (behindAuthority (hierOf url))) (pathOf ref))
    have hmerge := merge_length_le (pathOf (behindAuthority (hierOf url))) (pathOf ref)
    have hlong := congrArg List.length heq
    have hlen := congrArg List.length hsplit
    rw [hbase, hres] at hlong
    simp only [List.length_append] at hlong hlen
    omega
  · have hmerge : merge (pathOf (behindAuthority (hierOf url))) (pathOf ref) =
        directory (pathOf (behindAuthority (hierOf url))) ++ pathOf ref := if_neg hne
    have hstraight := removeDotSegments_eq_iff (merge_slash hpath (pathOf ref))
    have heq : baseOf url ++ ref = resolve url ref ↔
        Straight (merge (pathOf (behindAuthority (hierOf url))) (pathOf ref)) := by
      rw [← hstraight, hres, hbase, hmerge]
      conv_lhs => lhs; rw [← hsplit]
      rw [← List.append_assoc, List.append_left_inj, List.append_assoc, List.append_right_inj]
      exact eq_comm
    have hlen : (baseOf url).length = scheme.length + (authority (hierOf url)).length +
        (directory (pathOf (behindAuthority (hierOf url)))).length := by
      rw [hbase]
      simp only [List.length_append]
    rw [heq, hlen]
    exact ⟨fun ⟨hl, hs⟩ => ⟨hne, htail, hs, hl⟩, fun ⟨_, _, hs, hl⟩ => ⟨hl, hs⟩⟩
  · refine iff_of_false ?_ fun h => hne h.1
    rintro ⟨-, heq⟩
    rw [hbase, List.nil_append] at heq
    exact hempty heq

theorem resolved_iff (hurl : HttpUrl url) :
    segmentUrl (baseOf url) ref = some (resolve url ref) ↔ Resolvable url ref := by
  obtain ⟨⟨scheme, hscheme, hhost⟩, htext⟩ := hurl
  rw [← hierOf_eq hscheme] at hhost
  unfold Resolvable
  cases href : schemeOf ref with
  | some own =>
    obtain ⟨hself, hshort⟩ := @resolve_absolute url ref own href
    dsimp only
    by_cases hknown : 7 < ref.length ∧ ref.take 7 = http
    · rw [segmentUrl_recognised hknown, some_ite_iff, eq_comm (a := ref), hself]
      exact ⟨fun ⟨hl, hs⟩ => ⟨Or.inl hknown, hs, hl⟩, fun ⟨_, hs, hl⟩ => ⟨hl, hs⟩⟩
    · rw [segmentUrl_behind hknown, some_ite_iff, ← baseOf_eq_nil_iff hscheme htext]
      constructor
      · rintro ⟨hl, heq⟩
        have hnil : baseOf url = [] := by
          have hlong := congrArg List.length heq
          rw [List.length_append] at hlong
          exact List.eq_nil_of_length_eq_zero (by omega)
        rw [hnil, List.nil_append] at heq
        rw [hnil, List.length_nil] at hl
        exact ⟨Or.inr hnil, hself.mp heq.symm, by omega⟩
      · rintro ⟨hor, hs, hl⟩
        have hnil := hor.resolve_left hknown
        rw [hnil, List.length_nil, List.nil_append]
        exact ⟨by omega, (hself.mpr hs).symm⟩
  | none =>
    have hunknown : ¬ (7 < ref.length ∧ ref.take 7 = http) := by
      rintro ⟨-, htake⟩
      rw [http_schemeOf htake] at href
      cases href
    dsimp only
    rw [segmentUrl_behind hunknown, some_ite_iff, hscheme, Option.getD_some]
    by_cases hslash : ref.head? = some 47
    · exact iff_of_false
        (fun h => absolutePath_not_resolved hscheme hhost htext href hslash h.2)
        fun h => h.1 hslash
    · rw [relativePath_resolved_iff hscheme hhost htext href hslash]
      exact ⟨fun h => ⟨hslash, h⟩, And.right⟩

/-- An entry is resolved and can be requested exactly if the builder resolves it and its
request fits the header buffer. -/
theorem served_iff (hurl : HttpUrl url) (_href : Followed ref) :
    Served url ref ↔ Resolvable url ref ∧ Requestable (resolve url ref) := by
  have hres : segmentUrl (baseOf url) ref = some (resolve url ref) ↔ Resolvable url ref :=
    resolved_iff hurl
  constructor
  · rintro ⟨hresolved, hrequested⟩
    refine ⟨hres.mp hresolved, fun parts hparts => ?_⟩
    exact (get_ok_iff hparts).mp (hrequested _ parts hresolved hparts)
  · rintro ⟨hresolvable, hrequestable⟩
    have hresolved := hres.mpr hresolvable
    refine ⟨hresolved, fun built parts hbuilt hparts => ?_⟩
    rw [hresolved, Option.some_inj] at hbuilt
    rw [← hbuilt] at hparts
    rw [← hbuilt]
    exact (get_ok_iff hparts).mpr (hrequestable parts hparts)

def playlistUrl : List UInt8 := ascii "http://origin/live/a.m3u8"

theorem playlistUrl_http : HttpUrl playlistUrl := ⟨⟨http, rfl, by decide⟩, by decide⟩

theorem served_segment : Served playlistUrl (ascii "seg1.ts") := by
  have hsplit : HttpRequest.split (resolve playlistUrl (ascii "seg1.ts")) =
      .ok ⟨false, ascii "origin", 80, ascii "/live/seg1.ts"⟩ := by rfl
  refine (served_iff playlistUrl_http (Or.inr (Or.inr (by decide)))).mpr ⟨?_, fun parts h => ?_⟩
  · exact ⟨by decide, by decide, by decide, by decide, by decide⟩
  · rw [hsplit] at h
    obtain rfl := Except.ok.inj h
    decide

/-- An https entry is taken for a relative one. -/
theorem https_entry_misplaced :
    HttpUrl playlistUrl ∧ Followed (ascii "https://cdn/seg1.ts") ∧
      segmentUrl (baseOf playlistUrl) (ascii "https://cdn/seg1.ts") =
        some (ascii "http://origin/live/https://cdn/seg1.ts") ∧
      ¬ Served playlistUrl (ascii "https://cdn/seg1.ts") := by
  refine ⟨playlistUrl_http, Or.inl (by decide), by decide, fun h => ?_⟩
  exact absurd h.resolved (by decide)

end HlsPullUrl
