import NginxMedia.ByteString
import NginxMedia.CString
import NginxMedia.MediaTypes

/-! The HTTP client's URLs of `ngx_media_http.c`: a URL is split once, and the request is
printed into a buffer of fixed size. What happens on the connection is not modelled. -/
namespace HttpRequest

open ByteString MediaTypes CString

/-- What `ngx_media_http_split()` finds. -/
structure Parts where
  tls : Bool
  host : List UInt8
  port : ℕ
  target : List UInt8
  deriving DecidableEq

def authorityByte (b : UInt8) : Bool :=
  0x20 < b && b < 0x7f && b != 35 && b != 63 && b != 64

def targetByte (b : UInt8) : Bool := 0x20 < b && b != 0x7f && b != 35

/-- The digits behind the colon. -/
def portLoop (port : ℕ) : List UInt8 → Option ℕ
  | [] => some port
  | b :: rest =>
    if b < 48 ∨ b > 57 ∨ port > 6553 then none
    else portLoop (port * 10 + (b.toNat - 48)) rest

def splitHost (authority : List UInt8) : Option (List UInt8 × List UInt8) :=
  if authority.head? = some 91 then
    match (authority.drop 1).dropWhile (· != 93) with
    | [] => none
    | _ :: behind =>
      if behind ≠ [] ∧ behind.head? ≠ some 58 then none
      else some ((authority.drop 1).takeWhile (· != 93), behind)
  else some (authority.takeWhile (· != 58), authority.dropWhile (· != 58))

def splitScheme (url : List UInt8) : Option (Bool × ℕ × List UInt8) :=
  if url.take 8 = ascii "https://" then some (true, 443, url.drop 8)
  else if url.take 7 = ascii "http://" then some (false, 80, url.drop 7)
  else none

def targetOf (rest : List UInt8) : List UInt8 :=
  if rest.dropWhile (· != 47) = [] then [47] else rest.dropWhile (· != 47)

def split (url : List UInt8) : Except Rc Parts :=
  match splitScheme url with
  | none => .error .declined
  | some (tls, port, rest) =>
    let authority := rest.takeWhile (· != 47)
    let target := targetOf rest
    if authority.all authorityByte = false then .error .error
    else if target.all targetByte = false then .error .error
    else
      match splitHost authority with
      | none => .error .error
      | some (host, colon) =>
        if host.length = 0 ∨ host.length ≥ 256 then .error .error
        else if colon = [] then .ok ⟨tls, host, port, target⟩
        else
          match portLoop 0 (colon.drop 1) with
          | none => .error .error
          | some port =>
            if port = 0 ∨ port > 65535 then .error .error else .ok ⟨tls, host, port, target⟩

/-- `char header[1024]` of `ngx_media_http_get()`. -/
def headerSize : ℕ := 1024

/-- What is printed; a NUL would end what `%.*s` takes of the target or the host. -/
def getHeader (p : Parts) : List UInt8 :=
  ascii "GET " ++ chars p.target ++ ascii " HTTP/1.1\r\nHost: " ++
    (if 58 ∈ p.host then [91] else []) ++ chars p.host ++
    (if 58 ∈ p.host then [93] else []) ++ [58] ++ decimal p.port ++
    ascii "\r\nConnection: close\r\n\r\n"

/-- A connection to open and what to write to it. -/
structure Request where
  parts : Parts
  bytes : List UInt8
  deriving DecidableEq

/-- `ngx_media_http_get()` up to its connection. -/
def get (url : List UInt8) : Except Rc Request :=
  match split url with
  | .error rc => .error rc
  | .ok p => if (getHeader p).length ≥ headerSize then .error .error else .ok ⟨p, getHeader p⟩

variable {url rest authority host behind : List UInt8} {p : Parts}

theorem splitHost_sublist (h : splitHost authority = some (host, behind)) :
    ∀ b ∈ host, b ∈ authority := by
  unfold splitHost at h
  split_ifs at h with hbracket
  · split at h
    · cases h
    · split_ifs at h
      cases h
      exact fun b hb => List.mem_of_mem_drop (List.takeWhile_subset _ hb)
  · cases h
    exact fun b hb => List.takeWhile_subset _ hb

theorem split_text (h : split url = .ok p) : (0 : UInt8) ∉ p.host ∧ (0 : UInt8) ∉ p.target := by
  unfold split at h
  split at h
  · cases h
  · next tls port rest _ =>
    dsimp only at h
    split_ifs at h with hauthority htarget
    · have hauth : (0 : UInt8) ∉ rest.takeWhile (· != 47) := fun hb =>
        absurd (List.all_eq_true.mp (by simpa using hauthority) 0 hb) (by decide)
      have htgt : (0 : UInt8) ∉ targetOf rest := fun hb =>
        absurd (List.all_eq_true.mp (by simpa using htarget) 0 hb) (by decide)
      split at h
      · cases h
      · next host colon hsplit =>
        have hhost : (0 : UInt8) ∉ host := fun hb => hauth (splitHost_sublist hsplit 0 hb)
        split_ifs at h
        · cases h
          exact ⟨hhost, htgt⟩
        · split at h
          · cases h
          · split_ifs at h
            cases h
            exact ⟨hhost, htgt⟩

/-- The bytes a request takes besides its fixed text. -/
def variableLength (p : Parts) : ℕ :=
  p.target.length + p.host.length + (if 58 ∈ p.host then 2 else 0) + (decimal p.port).length

theorem getHeader_length (h : split url = .ok p) :
    (getHeader p).length = 45 + variableLength p := by
  obtain ⟨hhost, htarget⟩ := split_text h
  have hget : (ascii "GET ").length = 4 := by decide
  have hline : (ascii " HTTP/1.1\r\nHost: ").length = 17 := by decide
  have hend : (ascii "\r\nConnection: close\r\n\r\n").length = 23 := by decide
  unfold getHeader variableLength
  rw [chars_of_text hhost, chars_of_text htarget]
  split_ifs <;> simp only [List.length_append, hget, hline, hend, List.length_cons,
    List.length_nil] <;> omega

theorem get_ok_iff (h : split url = .ok p) :
    (∃ r, get url = .ok r ∧ r.parts = p) ↔ 45 + variableLength p < headerSize := by
  rw [← getHeader_length h]
  unfold get
  rw [h]
  dsimp only
  split_ifs with hfull
  · exact iff_of_false (by rintro ⟨r, hr, -⟩; cases hr) (by omega)
  · exact iff_of_true ⟨_, rfl, rfl⟩ (by omega)

end HttpRequest
