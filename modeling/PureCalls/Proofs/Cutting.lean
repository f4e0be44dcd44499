import PureCalls.Proofs.Reading

/-! What readers make of a text that is cut off. Up to the cut they read the same, and there they find the text
unfinished. Only a number has no sign at its end, so that a shorter one may be read in its place. -/
namespace PureCalls.Json

variable {α β : Type} {item : Reader α} {spells : List Char → α → List Char → Prop}

/-- What leads to one of the elements of a series, past all those in front of it. -/
inductive Comes {α : Type} (spells : List Char → α → List Char → Prop) : Bool → List Char → List Char → Prop
  | here {first cs start} (h : Lead first cs start) : Comes spells first cs start
  | behind {first cs start x mid next} (hlead : Lead first cs start) (hx : spells start x mid)
      (h : Comes spells false mid next) : Comes spells first cs next

/-- A text begins with a value, and what is left of it begins strictly inside a number: inside the value itself, or
inside one of those that it holds. -/
inductive InsideNumber : List Char → List Char → Prop
  | number {digits more integer fraction power rest} (h : IsNumber (digits ++ more) integer fraction power)
      (hdigits : digits ≠ []) (hmore : more ≠ []) : InsideNumber (digits ++ (more ++ rest)) (more ++ rest)
  | list {cs start left} (hstart : Comes Spelled true cs start) (h : InsideNumber start left) :
      InsideNumber ('[' :: cs) left
  | record {cs field key after mid start left} (hfield : Comes (Field Spelled) true cs ('"' :: field))
      (hkey : Quoted field key after) (hcolon : Blanks after (':' :: mid)) (hblanks : Blanks mid start)
      (h : InsideNumber start left) : InsideNumber ('{' :: cs) left

/-- A character that stands in numbers. -/
def InNumbers (c : Char) : Prop :=
  c.isDigit = true ∨ c ∈ ['-', '+', '.', 'e', 'E']

private theorem IsNumber.inNumbers {digits integer fraction : List Char} {power : Int}
    (h : IsNumber digits integer fraction power) : ∀ c ∈ digits, InNumbers c := by
  obtain ⟨hsign, hinteger, hpoint, he⟩ := h
  have hdigits {ds : List Char} (hds : Digits ds) : ∀ c ∈ ds, InNumbers c := fun c hc => .inl (hds.2 c hc)
  refine List.forall_mem_append.mpr ⟨?_, List.forall_mem_append.mpr ⟨hdigits hinteger.1, ?_⟩⟩
  · obtain rfl | rfl := hsign
    · exact List.forall_mem_nil _
    · exact List.forall_mem_singleton.mpr (.inr (by simp))
  refine List.forall_mem_append.mpr ⟨?_, ?_⟩
  · cases hpoint with
    | none => exact List.forall_mem_nil _
    | some hds => exact List.forall_mem_cons.mpr ⟨.inr (by simp), hdigits hds⟩
  · cases he with
    | none => exact List.forall_mem_nil _
    | unsigned he hds =>
      exact List.forall_mem_cons.mpr ⟨.inr (by obtain rfl | rfl := he <;> simp), hdigits hds⟩
    | plus he hds | minus he hds =>
      refine List.forall_mem_cons.mpr ⟨.inr (by obtain rfl | rfl := he <;> simp), ?_⟩
      exact List.forall_mem_cons.mpr ⟨.inr (by simp), hdigits hds⟩

/-- What is left inside a number goes on with one of its characters. -/
theorem InsideNumber.head {start left : List Char} (h : InsideNumber start left) :
    ∃ c cs, left = c :: cs ∧ InNumbers c := by
  induction h with
  | number h _ hmore =>
    obtain ⟨c, more, rfl⟩ := List.exists_cons_of_ne_nil hmore
    exact ⟨c, _, rfl, h.inNumbers c (by simp)⟩
  | list _ _ ih => exact ih
  | record _ _ _ _ _ ih => exact ih

/-- A text is refused, and as unfinished unless `inside` holds. -/
def Stopped (inside : Prop) (result : Except Fault α) : Prop :=
  ∃ fault, result = .error fault ∧ (fault = .unfinished ∨ inside)

/-- What a reader makes of a text without its end `more`, if it reads `x` in front of `rest` off the whole text: it
reads the same, or it stops. -/
def Cut (inside : Prop) (more : List Char) (x : α) (rest : List Char) (result : Except Fault (α × List Char)) : Prop :=
  (∃ left, rest = left ++ more ∧ result = .ok (x, left)) ∨ Stopped inside result

/-- The same for a reader that has no sign to stop at. If `inside` holds, it may take what is there for the whole. -/
def CutShort (inside : Prop) (more : List Char) (x : α) (rest : List Char) (result : Except Fault (α × List Char)) :
    Prop :=
  Cut inside more x rest result ∨ inside ∧ ∃ y, result = .ok (y, [])

section Cut
variable {inside inside' : Prop} {more mid rest : List Char} {x : α} {y : β} {result : Except Fault (α × List Char)}
  {f : α × List Char → Except Fault (β × List Char)}

theorem stopped_unfinished {result : Except Fault α} (h : result = .error .unfinished) : Stopped inside result :=
  ⟨_, h, .inl rfl⟩

private theorem Stopped.imp {result : Except Fault α} (h : Stopped inside result) (hi : inside → inside') :
    Stopped inside' result := by
  obtain ⟨fault, hresult, hfault⟩ := h
  exact ⟨fault, hresult, hfault.imp_right hi⟩

theorem Stopped.bind {result : Except Fault α} (h : Stopped inside result) (f : α → Except Fault β) :
    Stopped inside (result >>= f) := by
  obtain ⟨fault, rfl, hfault⟩ := h
  exact ⟨fault, rfl, hfault⟩

theorem Cut.imp (h : Cut inside more x rest result) (hi : inside → inside') : Cut inside' more x rest result :=
  Or.imp_right (Stopped.imp · hi) h

theorem Cut.bind (h : Cut inside more x mid result)
    (hf : ∀ left, mid = left ++ more → result = .ok (x, left) → Cut inside more y rest (f (x, left))) :
    Cut inside more y rest (result >>= f) := by
  obtain ⟨left, hmid, hresult⟩ | hstop := h
  · have hcut := hf left hmid hresult
    rwa [hresult]
  · exact .inr (hstop.bind f)

private theorem Cut.bind_short (h : Cut inside more x mid result)
    (hf : ∀ left, mid = left ++ more → CutShort inside more y rest (f (x, left))) :
    CutShort inside more y rest (result >>= f) := by
  obtain ⟨left, hmid, hresult⟩ | hstop := h
  · rw [hresult]
    exact hf left hmid
  · exact .inl (.inr (hstop.bind f))

/-- What a reader takes too little of is no harm in front of one that stops where nothing is left. -/
theorem CutShort.bind (h : CutShort inside more x mid result)
    (hf : ∀ left, mid = left ++ more → result = .ok (x, left) → Cut inside more y rest (f (x, left)))
    (hend : ∀ z, Stopped inside (f (z, []))) : Cut inside more y rest (result >>= f) := by
  obtain hcut | ⟨-, z, hresult⟩ := h
  · exact hcut.bind hf
  · rw [hresult]
    exact .inr (hend z)

private theorem CutShort.imp (h : CutShort inside more x rest result) (hi : inside → inside') :
    CutShort inside' more x rest result :=
  Or.imp (Cut.imp · hi) (And.imp_left hi) h

theorem CutShort.map (h : CutShort inside more x rest result) (g : α → β) :
    CutShort inside more (g x) rest (result >>= fun r => .ok (g r.1, r.2)) := by
  obtain hcut | ⟨hi, z, rfl⟩ := h
  · exact .inl (hcut.bind fun left hrest _ => .inl ⟨left, hrest, rfl⟩)
  · exact .inr ⟨hi, g z, rfl⟩

end Cut

section
variable {c : Char} {cut more rest : List Char}

/-- Of a text that is cut off, nothing but blanks is left, or what follows the blanks is cut off. -/
theorem Blanks.cut_off (h : Blanks (cut ++ more) (c :: rest)) (hc : isBlank c = false) :
    skipBlanks cut = [] ∨ ∃ left, skipBlanks cut = c :: left ∧ rest = left ++ more := by
  have hskip : skipBlanks (cut ++ more) = c :: rest := h.skipBlanks_cons hc
  clear h
  induction cut with
  | nil => exact .inl rfl
  | cons d cut ih =>
    cases hd : isBlank d with
    | true =>
      have hdrop (cs : List Char) : skipBlanks (d :: cs) = skipBlanks cs := List.dropWhile_cons_of_pos hd
      rw [hdrop]
      exact ih (by rwa [List.cons_append, hdrop] at hskip)
    | false =>
      rw [List.cons_append, skipBlanks_of_not_blank hd] at hskip
      obtain ⟨rfl, rfl⟩ := List.cons.inj hskip
      exact .inr ⟨cut, skipBlanks_of_not_blank hd cut, rfl⟩

private theorem Follows.of_append (h : Follows (cut ++ more)) : Follows cut := by
  cases cut with
  | nil => exact follows_nil
  | cons c cut => exact fun d hd => h d hd

theorem readColon_cut (h : Blanks (cut ++ more) (':' :: rest)) : Cut False more () rest (readColon cut) := by
  obtain hnil | ⟨left, hcut, hrest⟩ := h.cut_off (by decide)
  · exact .inr (stopped_unfinished (by rw [readColon, hnil]))
  · exact .inl ⟨left, hrest, by rw [readColon, hcut]; rfl⟩

private theorem readWord_cut {word : List Char} (h : cut ++ more = word ++ rest) :
    Cut False more () rest (readWord word cut) := by
  induction word generalizing cut with
  | nil => exact .inl ⟨cut, h.symm, rfl⟩
  | cons w word ih =>
    cases cut with
    | nil => exact .inr (stopped_unfinished rfl)
    | cons c cut =>
      obtain ⟨rfl, htail⟩ := List.cons.inj h
      rw [readWord, if_pos rfl]
      exact ih htail

private theorem utf8Size_of_hexValue {n : Nat} (h : hexValue? c = some n) : c.utf8Size = 1 := by
  have hle : c.val ≤ 0x7f := by
    unfold hexValue? at h
    split at h
    next hc => exact UInt32.le_trans hc.2 (by decide)
    next =>
      split at h
      next hc => exact UInt32.le_trans hc.2 (by decide)
      next =>
        split at h
        next hc => exact UInt32.le_trans hc.2 (by decide)
        next => cases h
  exact if_pos hle

private theorem readUnit_cut {n : Nat} (h : HexUnit (cut ++ more) n rest) : Cut False more n rest (readUnit cut) := by
  generalize hcs : cut ++ more = cs at h
  obtain ⟨ha, hb, hc, hd⟩ := h
  have hsize := utf8Size_of_hexValue ha
  have hsize' := utf8Size_of_hexValue hb
  have hsize'' := utf8Size_of_hexValue hc
  rcases cut with _ | ⟨_, _ | ⟨_, _ | ⟨_, _ | ⟨_, left⟩⟩⟩⟩ <;> cases hcs
  · exact .inr (stopped_unfinished rfl)
  · exact .inr (stopped_unfinished (if_pos (by simp [hsize])))
  · exact .inr (stopped_unfinished (if_pos (by simp [hsize, hsize'])))
  · exact .inr (stopped_unfinished (if_pos (by simp [hsize, hsize', hsize''])))
  · exact .inl ⟨left, rfl, readUnit_eq_ok.mpr (.mk ha hb hc hd)⟩

private theorem readUnits_cut (h : Escape ('u' :: (cut ++ more)) c rest) : Cut False more c rest (readUnits cut) := by
  cases h with
  | unit hn hlead htrail =>
    refine (readUnit_cut hn).bind fun left hrest _ => .inl ⟨left, hrest, ?_⟩
    dsimp only
    rw [if_neg (by simp [htrail]), if_neg (by simp [hlead])]
    rfl
  | @pair _ n mid m _ hn hlead hm htrail =>
    refine (readUnit_cut hn).bind fun left hrest _ => ?_
    dsimp only
    rw [if_neg (by simp [isTrailSurrogate_of_lead hlead]), if_pos hlead]
    rcases left with _ | ⟨_, _ | ⟨_, left⟩⟩ <;> cases hrest
    · exact .inr (stopped_unfinished rfl)
    · exact .inr (stopped_unfinished rfl)
    · refine (readUnit_cut hm).bind fun left hrest _ => .inl ⟨left, hrest, ?_⟩
      exact if_pos htrail

private theorem readEscape_cut (h : Escape (cut ++ more) c rest) : Cut False more c rest (readEscape cut) := by
  cases cut with
  | nil => exact .inr (stopped_unfinished rfl)
  | cons d left =>
    by_cases hd : d = 'u'
    · subst hd
      exact readUnits_cut h
    · cases h with
      | unit | pair => exact absurd rfl hd
      | _ => exact .inl ⟨left, rfl, rfl⟩

theorem readText_cut {text : List Char} (h : Quoted (cut ++ more) text rest) :
    Cut False more text rest (readText cut) := by
  generalize hcs : cut ++ more = cs at h
  induction h generalizing cut with
  | close =>
    cases cut with
    | nil => exact .inr (stopped_unfinished (by rw [readText]))
    | cons d left =>
      cases hcs
      exact .inl ⟨left, rfl, readText_eq_ok.mpr .close⟩
  | plain hc hquote hbackslash _ ih =>
    cases cut with
    | nil => exact .inr (stopped_unfinished (by rw [readText]))
    | cons d left =>
      obtain ⟨rfl, hleft⟩ := List.cons.inj hcs
      have hread : readText (d :: left) = readText left >>= fun r => .ok (d :: r.1, r.2) := by
        rw [readText, if_neg (Char.not_lt.mpr hc)]
        · cases readText left <;> rfl
        · exact hquote
        · exact hbackslash
      rw [hread]
      exact (ih hleft).bind fun left' hrest _ => .inl ⟨left', hrest, rfl⟩
  | escape hc _ ih =>
    cases cut with
    | nil => exact .inr (stopped_unfinished (by rw [readText]))
    | cons d left =>
      obtain ⟨rfl, hleft⟩ := List.cons.inj hcs
      have hread : readText ('\\' :: left) = readEscape left >>= fun e =>
          readText e.2 >>= fun r => .ok (e.1 :: r.1, r.2) := by
        rw [readText]
        split
        next hfault => rw [hfault]; rfl
        next c mid hmid =>
          have hbind : (readEscape left >>= fun e => readText e.2 >>= fun r => .ok (e.1 :: r.1, r.2)) =
              readText mid >>= fun r => Except.ok (c :: r.1, r.2) := by rw [hmid]; rfl
          rw [hbind]
          cases readText mid <;> rfl
      rw [hread]
      refine (readEscape_cut (hleft ▸ hc)).bind fun mid hmid _ => ?_
      exact (ih hmid.symm).bind fun left' hrest _ => .inl ⟨left', hrest, rfl⟩

private theorem NoDigit.append (h : NoDigit cut) (hne : cut ≠ []) (more : List Char) : NoDigit (cut ++ more) := by
  obtain ⟨c, cs, rfl⟩ := List.exists_cons_of_ne_nil hne
  exact h

private theorem readDigits_append {ds left : List Char} (h : readDigits cut = .ok (ds, left)) (hne : left ≠ []) :
    readDigits (cut ++ more) = .ok (ds, left ++ more) := by
  obtain ⟨hds, rfl, hleft⟩ := readDigits_eq_ok.mp h
  exact readDigits_eq_ok.mpr ⟨hds, List.append_assoc .., hleft.append hne more⟩

private theorem readInteger_append {ds left : List Char} (h : readInteger cut = .ok (ds, left)) (hne : left ≠ []) :
    readInteger (cut ++ more) = .ok (ds, left ++ more) := by
  obtain ⟨hds, rfl, hleft⟩ := readInteger_eq_ok.mp h
  exact readInteger_eq_ok.mpr ⟨hds, List.append_assoc .., hleft.append hne more⟩

private theorem readFraction_append {ds left : List Char} (h : readFraction cut = .ok (ds, left)) (hne : left ≠ []) :
    readFraction (cut ++ more) = .ok (ds, left ++ more) := by
  unfold readFraction at h
  split at h
  next => exact readDigits_append h hne
  next hpoint =>
    cases h
    obtain ⟨d, cs, rfl⟩ := List.exists_cons_of_ne_nil hne
    unfold readFraction
    split
    next heq =>
      cases heq
      exact absurd rfl (hpoint _)
    next => rfl

private theorem readPower_append {power : Int} {left : List Char} (h : readPower cut = .ok (power, left)) (hne : left ≠ []) :
    readPower (cut ++ more) = .ok (power, left ++ more) := by
  unfold readPower at h
  split at h
  next e cs =>
    split at h
    next he =>
      refine (if_pos he).trans ?_
      split at h
      all_goals
        obtain ⟨⟨ds, final⟩, hread, hpower⟩ := bind_eq_ok.mp h
        cases hpower
      · exact bind_eq_ok.mpr ⟨_, readDigits_append hread hne, rfl⟩
      · exact bind_eq_ok.mpr ⟨_, readDigits_append hread hne, rfl⟩
      next hminus hplus =>
        cases cs with
        | nil => cases hread
        | cons d cs =>
          split
          next heq =>
            cases heq
            exact absurd rfl (hminus _)
          next heq =>
            cases heq
            exact absurd rfl (hplus _)
          next => exact bind_eq_ok.mpr ⟨_, readDigits_append hread hne, rfl⟩
    next he =>
      cases h
      exact if_neg he
  next =>
    cases h
    exact absurd rfl hne

private theorem unsigned_append (hne : cut ≠ []) (more : List Char) : unsigned (cut ++ more) = unsigned cut ++ more := by
  obtain ⟨c, cs, rfl⟩ := List.exists_cons_of_ne_nil hne
  by_cases hc : c = '-'
  · rw [hc]
    rfl
  · have hsame (cs : List Char) : unsigned (c :: cs) = c :: cs := by
      unfold unsigned
      split
      next heq => exact absurd (List.cons.inj heq).1 hc
      next => rfl
    rw [List.cons_append, hsame, hsame, List.cons_append]

/-- If behind a number something is left, the same is left in front of more text. -/
theorem readNumber_append {literal : String} {left : List Char} (h : readNumber cut = .ok (literal, left))
    (hne : left ≠ []) (more : List Char) : readNumber (cut ++ more) = .ok (literal, left ++ more) := by
  obtain ⟨digits, -, hcut, rfl⟩ := readNumber_sound h
  obtain ⟨⟨integer, mid⟩, hinteger, hread⟩ := bind_eq_ok.mp h
  obtain ⟨⟨fraction, mid'⟩, hfraction, hread'⟩ := bind_eq_ok.mp hread
  obtain ⟨⟨power, final⟩, hpower, hfinal⟩ := bind_eq_ok.mp hread'
  change readInteger (unsigned cut) = _ at hinteger
  dsimp only at hfraction hpower hfinal
  split at hfinal
  next hfinite =>
    obtain ⟨-, rfl⟩ := Prod.mk.inj (Except.ok.inj hfinal)
    have hmid' : mid' ≠ [] := by
      rintro rfl
      cases hpower
      exact hne rfl
    have hmid : mid ≠ [] := by
      rintro rfl
      cases hfraction
      exact hmid' rfl
    have hcut' : cut ≠ [] := by
      rintro rfl
      exact hne (List.append_eq_nil_iff.mp hcut.symm).2
    have hinteger' : readInteger (unsigned (cut ++ more)) = .ok (integer, mid ++ more) := by
      rw [unsigned_append hcut']
      exact readInteger_append hinteger hmid
    refine bind_eq_ok.mpr ⟨_, hinteger', ?_⟩
    refine bind_eq_ok.mpr ⟨_, readFraction_append hfraction hmid', ?_⟩
    refine bind_eq_ok.mpr ⟨_, readPower_append hpower hne, ?_⟩
    refine (if_pos hfinite).trans ?_
    rw [hcut, List.append_assoc, take_length_sub]
    rfl
  next => cases hfinal

/-- A number that is cut off is read as a shorter one, or it is refused. -/
theorem readNumber_cut {digits : List Char} (h : IsFinite digits) (hcs : digits ++ rest = cut ++ more)
    (hrest : Follows rest) (hne : cut ≠ []) :
    CutShort (InsideNumber (cut ++ more) more) more (String.ofList digits) rest (readNumber cut) := by
  have hread : readNumber (cut ++ more) = .ok (String.ofList digits, rest) :=
    hcs ▸ readNumber_complete h hrest
  obtain ⟨left, rfl, rfl⟩ | ⟨front, rfl, rfl⟩ := List.append_eq_append_iff.mp hcs
  · exact .inl (.inl ⟨left, rfl, readNumber_complete h hrest.of_append⟩)
  · by_cases hfront : front = []
    · subst hfront
      rw [List.append_nil] at h
      have hsame : readNumber (cut ++ []) = .ok (String.ofList cut, []) := readNumber_complete h follows_nil
      exact .inl (.inl ⟨[], rfl, by simpa using hsame⟩)
    · obtain ⟨_, _, _, hnumber, -⟩ := h
      have hinside : InsideNumber (cut ++ (front ++ rest)) (front ++ rest) := .number hnumber hne hfront
      cases hcut : readNumber cut with
      | error fault => exact .inl (.inr ⟨fault, rfl, .inr hinside⟩)
      | ok read =>
        obtain ⟨y, left⟩ := read
        -- Were something left of the digits, it would be left of all digits as well.
        have hleft : left = [] := by
          by_contra hne'
          have hmore := (readNumber_append hcut hne' (front ++ rest)).symm.trans hread
          have hlength := congrArg List.length (Prod.mk.inj (Except.ok.inj hmore)).2
          have hpos := List.length_pos_iff.mpr hfront
          simp only [List.length_append] at hlength
          omega
        exact .inr ⟨hinside, y, by rw [hleft]⟩

end

/-- A reader that is given the beginning of a text reads it as `CutShort` says. -/
def Truncates (item : Reader α) (spells : List Char → α → List Char → Prop) (inside : List Char → List Char → Prop) :
    Prop :=
  ∀ ⦃cut more start x rest⦄, Blanks (cut ++ more) start → spells start x rest → Follows rest →
    CutShort (inside start more) more x rest (item cut)

/-- One of the elements of a series begins where what is given lies inside. -/
def InSeries (spells : List Char → α → List Char → Prop) (inside : List Char → List Char → Prop) (first : Bool)
    (cs left : List Char) : Prop :=
  ∃ start, Comes spells first cs start ∧ inside start left

section
variable {inside : List Char → List Char → Prop} {first : Bool} {cs cut left more mid rest start : List Char}
  {x : α} {xs : List α}

private theorem InSeries.here (hlead : Lead first cs start) (h : inside start left) : InSeries spells inside first cs left :=
  ⟨start, .here hlead, h⟩

private theorem InSeries.behind (hlead : Lead first cs start) (hx : spells start x mid)
    (h : InSeries spells inside false mid left) : InSeries spells inside first cs left := by
  obtain ⟨next, hnext, hinside⟩ := h
  exact ⟨next, .behind hlead hx hnext, hinside⟩

/-- An element that is cut off, and the elements behind it, make elements that are cut off. -/
theorem CutShort.cons {result : Except Fault (α × List Char)} (h : CutShort (inside start more) more x mid result)
    (behind : Reader (List α)) (hlead : Lead first cs start) (hx : spells start x mid)
    (hbehind : ∀ left, mid = left ++ more → result = .ok (x, left) →
      Cut (InSeries spells inside false mid more) more xs rest (behind left))
    (hnil : behind [] = .error .unfinished) :
    Cut (InSeries spells inside first cs more) more (x :: xs) rest
      (result >>= fun r => behind r.2 >>= fun rs => .ok (r.1 :: rs.1, rs.2)) := by
  refine (h.imp (InSeries.here hlead)).bind (fun left hmid hresult => ?_) fun _ => ?_
  · have hrest := (hbehind left hmid hresult).imp (InSeries.behind hlead hx)
    exact hrest.bind fun last hlast _ => .inl ⟨last, hlast, rfl⟩
  · exact (stopped_unfinished hnil).bind _

private theorem readMoreItems_nil (item : Reader α) (n : Nat) : readMoreItems item n [] = .error .unfinished := by
  cases n <;> rfl

private theorem readMoreItems_cut (hitem : Reads item spells) (hcut : Truncates item spells inside) {n : Nat}
    (h : Series ']' spells false (cut ++ more) xs rest) (hn : cut.length < n) :
    Cut (InSeries spells inside false (cut ++ more) more) more xs rest (readMoreItems item n cut) := by
  induction n generalizing cut xs with
  | zero => omega
  | succ n ih =>
    cases h with
    | nil hend =>
      obtain hnil | ⟨left, hleft, hrest⟩ := hend.cut_off (by decide)
      · exact .inr (stopped_unfinished (by rw [readMoreItems, hnil]))
      · exact .inl ⟨left, hrest, by rw [readMoreItems, hleft]; rfl⟩
    | cons hlead hx hmore =>
      obtain ⟨⟩ | ⟨hcomma, hblanks⟩ := id hlead
      obtain hnil | ⟨behind, hbehind, rfl⟩ := hcomma.cut_off (by decide)
      · exact .inr (stopped_unfinished (by rw [readMoreItems, hnil]))
      obtain ⟨c, cs, rfl, hc, hclose⟩ := hitem.starts hx
      obtain hnil | ⟨left, hleft, rfl⟩ := hblanks.cut_off hc
      · exact .inr (stopped_unfinished (by rw [readMoreItems, hbehind]; simp only [hnil]))
      have hread : readMoreItems item (n + 1) cut = item (c :: left) >>= fun r =>
          readMoreItems item n r.2 >>= fun rs => .ok (r.1 :: rs.1, rs.2) := by
        rw [readMoreItems, hbehind]
        simp only [hleft]
        split
        next heq => cases heq
        next heq => exact absurd (List.cons.inj heq).1 hclose
        next => rfl
      rw [hread]
      have hfirst := hcut (show Blanks (c :: left ++ more) _ from .none) hx (hmore.follows (.inl rfl))
      refine hfirst.cons (readMoreItems item n) hlead hx (fun last hlast hsame => ?_) (readMoreItems_nil item n)
      -- At least the comma is taken, so what bounds the rest goes down with it.
      have hlength : last.length < n := by
        obtain ⟨start, hstart, hx'⟩ := hitem.sound hsame
        have := hitem.length_le hx'
        have := hstart.length_le
        have := hleft ▸ (blanks_skipBlanks behind).length_le
        have := hbehind ▸ (blanks_skipBlanks cut).length_le
        simp only [List.length_cons] at *
        omega
      subst hlast
      exact ih hmore hlength

theorem readItems_cut (hitem : Reads item spells) (hcut : Truncates item spells inside)
    (h : Series ']' spells true (cut ++ more) xs rest) :
    Cut (InSeries spells inside true (cut ++ more) more) more xs rest (readItems item cut) := by
  cases h with
  | nil hend =>
    obtain hnil | ⟨left, hleft, hrest⟩ := hend.cut_off (by decide)
    · exact .inr (stopped_unfinished (by rw [readItems, hnil]))
    · exact .inl ⟨left, hrest, by rw [readItems, hleft]; rfl⟩
  | cons hlead hx hmore =>
    obtain ⟨hblanks⟩ | ⟨⟩ := id hlead
    obtain ⟨c, cs, rfl, hc, hclose⟩ := hitem.starts hx
    obtain hnil | ⟨left, hleft, rfl⟩ := hblanks.cut_off hc
    · exact .inr (stopped_unfinished (by rw [readItems, hnil]))
    have hread : readItems item cut = item (c :: left) >>= fun r =>
        readMoreItems item (r.2.length + 1) r.2 >>= fun rs => .ok (r.1 :: rs.1, rs.2) := by
      unfold readItems
      rw [hleft]
      split
      next heq => cases heq
      next heq => exact absurd (List.cons.inj heq).1 hclose
      next => rfl
    rw [hread]
    have hfirst := hcut (show Blanks (c :: left ++ more) _ from .none) hx (hmore.follows (.inl rfl))
    let behind : Reader (List α) := fun left => readMoreItems item (left.length + 1) left
    refine hfirst.cons behind hlead hx (fun last hlast _ => ?_) rfl
    subst hlast
    exact readMoreItems_cut hitem hcut hmore (Nat.lt_succ_self _)

/-- A key, a colon and a value stand there, and what is given lies inside the value. -/
def InField (inside : List Char → List Char → Prop) (start left : List Char) : Prop :=
  ∃ field key after mid value, start = '"' :: field ∧ Quoted field key after ∧ Blanks after (':' :: mid) ∧
    Blanks mid value ∧ inside value left

private theorem readField_cut {field : String × α} (hcut : Truncates item spells inside)
    (h : Field spells ('"' :: (cut ++ more)) field rest) (hrest : Follows rest) :
    CutShort (InField inside ('"' :: (cut ++ more)) more) more field rest (readField item cut) := by
  obtain ⟨hkey, hcolon, hblanks, hx⟩ := h
  refine ((readText_cut hkey).imp False.elim).bind_short fun left hleft => ?_
  subst hleft
  refine ((readColon_cut hcolon).imp False.elim).bind_short fun left hleft => ?_
  subst hleft
  have hvalue := (hcut hblanks hx hrest).imp fun hi =>
    (⟨_, _, _, _, _, rfl, hkey, hcolon, hblanks, hi⟩ : InField inside ('"' :: (cut ++ more)) more)
  exact hvalue.map fun v => (_, v)

private theorem readMoreFields_nil (item : Reader α) (n : Nat) : readMoreFields item n [] = .error .unfinished := by
  cases n <;> rfl

variable {fields : List (String × α)}

private theorem readMoreFields_cut (hitem : Reads item spells) (hcut : Truncates item spells inside) {n : Nat}
    (h : Series '}' (Field spells) false (cut ++ more) fields rest) (hn : cut.length < n) :
    Cut (InSeries (Field spells) (InField inside) false (cut ++ more) more) more fields rest
      (readMoreFields item n cut) := by
  induction n generalizing cut fields with
  | zero => omega
  | succ n ih =>
    cases h with
    | nil hend =>
      obtain hnil | ⟨left, hleft, hrest⟩ := hend.cut_off (by decide)
      · exact .inr (stopped_unfinished (by rw [readMoreFields, hnil]))
      · exact .inl ⟨left, hrest, by rw [readMoreFields, hleft]; rfl⟩
    | cons hlead hx hmore =>
      obtain ⟨⟩ | ⟨hcomma, hblanks⟩ := id hlead
      obtain hnil | ⟨behind, hbehind, rfl⟩ := hcomma.cut_off (by decide)
      · exact .inr (stopped_unfinished (by rw [readMoreFields, hnil]))
      obtain ⟨hkey⟩ := id hx
      obtain hnil | ⟨left, hleft, rfl⟩ := hblanks.cut_off (by decide)
      · exact .inr (stopped_unfinished (by rw [readMoreFields, hbehind]; simp only [hnil]))
      have hread : readMoreFields item (n + 1) cut = readField item left >>= fun r =>
          readMoreFields item n r.2 >>= fun rs => .ok (r.1 :: rs.1, rs.2) := by
        rw [readMoreFields, hbehind]
        simp only [hleft]
        rfl
      rw [hread]
      have hfirst := readField_cut hcut hx (hmore.follows (.inr rfl))
      refine hfirst.cons (readMoreFields item n) hlead hx (fun last hlast hsame => ?_) (readMoreFields_nil item n)
      have hlength : last.length < n := by
        have := (readField_sound hitem hsame).length_lt hitem.length_le
        have := hleft ▸ (blanks_skipBlanks behind).length_le
        have := hbehind ▸ (blanks_skipBlanks cut).length_le
        simp only [List.length_cons] at *
        omega
      subst hlast
      exact ih hmore hlength

theorem readFields_cut (hitem : Reads item spells) (hcut : Truncates item spells inside)
    (h : Series '}' (Field spells) true (cut ++ more) fields rest) :
    Cut (InSeries (Field spells) (InField inside) true (cut ++ more) more) more fields rest (readFields item cut) := by
  cases h with
  | nil hend =>
    obtain hnil | ⟨left, hleft, hrest⟩ := hend.cut_off (by decide)
    · exact .inr (stopped_unfinished (by rw [readFields, hnil]))
    · exact .inl ⟨left, hrest, by rw [readFields, hleft]; rfl⟩
  | cons hlead hx hmore =>
    obtain ⟨hblanks⟩ | ⟨⟩ := id hlead
    obtain ⟨hkey⟩ := id hx
    obtain hnil | ⟨left, hleft, rfl⟩ := hblanks.cut_off (by decide)
    · exact .inr (stopped_unfinished (by rw [readFields, hnil]))
    have hread : readFields item cut = readField item left >>= fun r =>
        readMoreFields item (r.2.length + 1) r.2 >>= fun rs => .ok (r.1 :: rs.1, rs.2) := by
      unfold readFields
      rw [hleft]
      rfl
    rw [hread]
    have hfirst := readField_cut hcut hx (hmore.follows (.inr rfl))
    let behind : Reader (List (String × α)) := fun left => readMoreFields item (left.length + 1) left
    refine hfirst.cons behind hlead hx (fun last hlast _ => ?_) rfl
    subst hlast
    exact readMoreFields_cut hitem hcut hmore (Nat.lt_succ_self _)

end

section
variable {cut more rest : List Char}

private theorem Comes.imp {spells' : List Char → β → List Char → Prop} {first : Bool} {cs next : List Char}
    (h : Comes spells first cs next) (hi : ∀ ⦃start x rest⦄, spells start x rest → ∃ y, spells' start y rest) :
    Comes spells' first cs next := by
  induction h with
  | here hlead => exact .here hlead
  | behind hlead hx _ ih =>
    obtain ⟨y, hy⟩ := hi hx
    exact .behind hlead hy ih

private theorem readScalar_cut {depth : Nat} {c : Char} {left : List Char} {v : Value}
    (h : SpelledWithin depth (c :: (left ++ more)) v rest) (hlist : ∀ items, v ≠ .list items)
    (hrecord : ∀ fields, v ≠ .record fields) (hrest : Follows rest) :
    CutShort (InsideNumber (c :: (left ++ more)) more) more v rest (readScalar (c :: left)) := by
  obtain ⟨hspelled, hfits⟩ := h
  generalize hcs : left ++ more = cs at hspelled
  cases hspelled with
  | null =>
    have hword : Cut False more () rest (readWord ['u', 'l', 'l'] left) := readWord_cut hcs
    exact .inl ((hword.imp False.elim).bind fun left hrest _ => .inl ⟨left, hrest, rfl⟩)
  | yes =>
    have hword : Cut False more () rest (readWord ['r', 'u', 'e'] left) := readWord_cut hcs
    exact .inl ((hword.imp False.elim).bind fun left hrest _ => .inl ⟨left, hrest, rfl⟩)
  | no =>
    have hword : Cut False more () rest (readWord ['a', 'l', 's', 'e'] left) := readWord_cut hcs
    exact .inl ((hword.imp False.elim).bind fun left hrest _ => .inl ⟨left, hrest, rfl⟩)
  | text h =>
    subst hcs
    exact .inl (((readText_cut h).imp False.elim).bind fun left hrest _ => .inl ⟨left, hrest, rfl⟩)
  | list => exact absurd rfl (hlist _)
  | record => exact absurd rfl (hrecord _)
  | @number _ digits _ _ _ _ hnumber hdigits =>
    cases hfits with
    | number hfinite =>
    rw [String.toList_ofList] at hfinite
    have happend : digits ++ rest = c :: left ++ more := hdigits.symm.trans (congrArg (c :: ·) hcs.symm)
    have hcut := readNumber_cut hfinite happend hrest (List.cons_ne_nil c left)
    obtain ⟨d, ds, rfl, hd⟩ := hnumber.starts
    obtain ⟨rfl, -⟩ := List.cons.inj hdigits
    have hne {d : Char} (hd' : isNumberStart d = false) : c ≠ d := ne_of_isNumberStart hd hd'
    rw [readScalar, if_pos hd]
    · rw [← hcs]
      exact hcut.map Value.number
    all_goals exact hne rfl

theorem InsideNumber.of_items {cs left : List Char}
    (hspells : ∀ ⦃start x rest⦄, spells start x rest → ∃ v, Spelled start v rest)
    (h : InSeries spells InsideNumber true cs left) : InsideNumber ('[' :: cs) left := by
  obtain ⟨start, hcomes, hinside⟩ := h
  exact .list (hcomes.imp hspells) hinside

theorem InsideNumber.of_fields {cs left : List Char}
    (hspells : ∀ ⦃start x rest⦄, spells start x rest → ∃ v, Spelled start v rest)
    (h : InSeries (Field spells) (InField InsideNumber) true cs left) : InsideNumber ('{' :: cs) left := by
  obtain ⟨_, hcomes, field, key, after, mid, value, rfl, hkey, hcolon, hblanks, hinside⟩ := h
  refine .record (hcomes.imp fun _ _ _ hfield => ?_) hkey hcolon hblanks hinside
  obtain ⟨hkey, hcolon, hblanks, hx⟩ := hfield
  obtain ⟨v, hv⟩ := hspells hx
  exact ⟨_, .mk hkey hcolon hblanks hv⟩

private theorem readValue_nil (depth : Nat) (h : skipBlanks cut = []) : readValue depth cut = .error .unfinished := by
  cases depth <;> rw [readValue, h] <;> rfl

private theorem readValue_cut_scalar {depth : Nat} {start : List Char} {v : Value} (hblanks : Blanks (cut ++ more) start)
    (h : SpelledWithin depth start v rest) (hlist : ∀ items, v ≠ .list items) (hrecord : ∀ fields, v ≠ .record fields)
    (hrest : Follows rest) : CutShort (InsideNumber start more) more v rest (readValue depth cut) := by
  obtain ⟨c, cs, rfl, hc, -, hopenList, hopenRecord⟩ := h.1.starts
  obtain hnil | ⟨left, hleft, rfl⟩ := hblanks.cut_off hc
  · exact .inl (.inr (stopped_unfinished (readValue_nil depth hnil)))
  · rw [readValue_of_scalar hleft (fun hc => ?_) (fun hc => ?_)]
    · exact readScalar_cut h hlist hrecord hrest
    · obtain ⟨items, hv⟩ := hopenList hc
      exact hlist items hv
    · obtain ⟨fields, hv⟩ := hopenRecord hc
      exact hrecord fields hv

/-- A value that is cut off is refused as unfinished, unless a number in it is cut off. -/
theorem readValue_cut (depth : Nat) : Truncates (readValue depth) (SpelledWithin depth) InsideNumber := by
  induction depth with
  | zero =>
    intro cut more start v rest hblanks h hrest
    refine readValue_cut_scalar hblanks h ?_ ?_ hrest <;>
    · rintro _ rfl
      cases h.2
  | succ depth ih =>
    intro cut more start v rest hblanks h hrest
    have hspells : ∀ ⦃start v rest⦄, SpelledWithin depth start v rest → ∃ w, Spelled start w rest :=
      fun _ _ _ h => ⟨_, h.1⟩
    cases h.1 with
    | list =>
      obtain hnil | ⟨left, hleft, rfl⟩ := hblanks.cut_off (by decide)
      · exact .inl (.inr (stopped_unfinished (readValue_nil _ hnil)))
      · rw [readValue, hleft]
        have hitems := readItems_cut (reads_readValue depth) ih (spelledWithin_list.mp h)
        exact .inl ((hitems.imp (.of_items hspells)).bind fun left hrest _ => .inl ⟨left, hrest, rfl⟩)
    | record =>
      obtain hnil | ⟨left, hleft, rfl⟩ := hblanks.cut_off (by decide)
      · exact .inl (.inr (stopped_unfinished (readValue_nil _ hnil)))
      · rw [readValue, hleft]
        have hfields := readFields_cut (reads_readValue depth) ih (spelledWithin_record.mp h)
        exact .inl ((hfields.imp (.of_fields hspells)).bind fun left hrest _ => .inl ⟨left, hrest, rfl⟩)
    | _ => exact readValue_cut_scalar hblanks h (by rintro _ ⟨⟩) (by rintro _ ⟨⟩) hrest

end

end PureCalls.Json
