import PureCalls.Json.Value

/-! JSON strings: what stands between the quotes, with its escapes. -/
namespace PureCalls.Json

/-- The value of a hexadecimal digit in either case. -/
def hexValue? (c : Char) : Option Nat :=
  if '0' ≤ c ∧ c ≤ '9' then some (c.toNat - '0'.toNat)
  else if 'a' ≤ c ∧ c ≤ 'f' then some (c.toNat - 'a'.toNat + 10)
  else if 'A' ≤ c ∧ c ≤ 'F' then some (c.toNat - 'A'.toNat + 10)
  else none

/-- Reads four hexadecimal digits. A text that has fewer than four bytes left counts as ended, whatever they are. -/
def readUnit (cs : List Char) : Except Fault (Nat × List Char) :=
  if (cs.take 4).foldl (fun n c => n + c.utf8Size) 0 < 4 then .error .unfinished
  else
    match cs with
    | a :: b :: c :: d :: rest =>
      match hexValue? a, hexValue? b, hexValue? c, hexValue? d with
      | some a, some b, some c, some d => .ok (((a * 16 + b) * 16 + c) * 16 + d, rest)
      | _, _, _, _ => .error .malformed
    | _ => .error .malformed

def isLeadSurrogate (n : Nat) : Bool :=
  0xD800 ≤ n && n < 0xDC00

def isTrailSurrogate (n : Nat) : Bool :=
  0xDC00 ≤ n && n < 0xE000

/-- Reads the units behind `\u`, of which a surrogate takes two. -/
def readUnits (cs : List Char) : Except Fault (Char × List Char) := do
  let (n, rest) ← readUnit cs
  if isTrailSurrogate n then .error .malformed
  else if isLeadSurrogate n then
    match rest with
    | [] | ['\\'] => .error .unfinished
    | '\\' :: 'u' :: rest =>
      let (m, rest) ← readUnit rest
      if isTrailSurrogate m then return (Char.ofNat (0x10000 + (n - 0xD800) * 0x400 + (m - 0xDC00)), rest)
      else .error .malformed
    | _ => .error .malformed
  else return (Char.ofNat n, rest)

/-- Reads what stands behind a backslash. -/
def readEscape : Reader Char
  | [] => .error .unfinished
  | 'u' :: rest => readUnits rest
  | c :: rest =>
    match c with
    | '"' => .ok ('"', rest)
    | '\\' => .ok ('\\', rest)
    | '/' => .ok ('/', rest)
    | 'b' => .ok ('\x08', rest)
    | 'f' => .ok ('\x0c', rest)
    | 'n' => .ok ('\n', rest)
    | 'r' => .ok ('\r', rest)
    | 't' => .ok ('\t', rest)
    | _ => .error .malformed

private theorem readUnit_length {cs rest : List Char} {n : Nat} (h : readUnit cs = .ok (n, rest)) :
    rest.length < cs.length := by
  unfold readUnit at h
  split at h
  · simp at h
  · split at h
    · split at h
      · simp only [Except.ok.injEq, Prod.mk.injEq] at h
        simp only [← h.2, List.length_cons]
        omega
      · simp at h
    · simp at h

private theorem readUnits_length {cs rest : List Char} {c : Char} (h : readUnits cs = .ok (c, rest)) :
    rest.length < cs.length := by
  unfold readUnits at h
  cases hu : readUnit cs with
  | error e => simp [hu, bind, Except.bind] at h
  | ok r =>
    obtain ⟨n, mid⟩ := r
    have hn := readUnit_length hu
    simp only [hu, bind, Except.bind, pure, Except.pure] at h
    split at h
    · simp at h
    · split at h
      · split at h
        · simp at h
        · simp at h
        · rename_i tail
          cases hm : readUnit tail with
          | error e => simp [hm] at h
          | ok r =>
            obtain ⟨m, final⟩ := r
            have hf := readUnit_length hm
            simp only [hm] at h
            split at h
            · simp only [Except.ok.injEq, Prod.mk.injEq] at h
              simp only [← h.2, List.length_cons] at *
              omega
            · simp at h
        · simp at h
      · simp only [Except.ok.injEq, Prod.mk.injEq] at h
        rw [← h.2]
        exact hn

theorem readEscape_length {cs rest : List Char} {c : Char} (h : readEscape cs = .ok (c, rest)) :
    rest.length < cs.length := by
  unfold readEscape at h
  split at h
  · simp at h
  · have := readUnits_length h
    simp only [List.length_cons]
    omega
  · split at h <;> first | (simp at h; done) | (simp only [Except.ok.injEq, Prod.mk.injEq] at h; simp [← h.2])

/-- Reads a string up to its closing quote, the opening one being read. -/
def readText (cs : List Char) : Except Fault (List Char × List Char) :=
  match cs with
  | [] => .error .unfinished
  | '"' :: rest => .ok ([], rest)
  | '\\' :: rest =>
    match h : readEscape rest with
    | .error fault => .error fault
    | .ok (c, rest') =>
      have := readEscape_length h
      match readText rest' with
      | .error fault => .error fault
      | .ok (text, rest'') => .ok (c :: text, rest'')
  | c :: rest =>
    if c < ' ' then .error .malformed
    else
      match readText rest with
      | .error fault => .error fault
      | .ok (text, rest') => .ok (c :: text, rest')
termination_by cs.length
decreasing_by all_goals simp_wf <;> omega

end PureCalls.Json
