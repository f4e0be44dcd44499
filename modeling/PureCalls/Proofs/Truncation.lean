import PureCalls.Proofs.Cutting
import PureCalls.Proofs.Format

/-! Options texts that end too early. Without the bracket that closes the whole no beginning of a text is read as
options, wherever it ends. -/
namespace PureCalls
namespace Json

variable {α : Type} {spells : List Char → α → List Char → Prop} {cs rest : List Char}

private theorem Blanks.suffix (h : Blanks cs rest) : rest <:+ cs := by
  induction h with
  | none => exact List.suffix_rfl
  | some _ _ ih => exact ih.trans (List.suffix_cons _ _)

private theorem HexUnit.suffix {n : Nat} (h : HexUnit cs n rest) : rest <:+ cs := by
  obtain ⟨_, _, _, _⟩ := h
  exact List.suffix_append [_, _, _, _] _

private theorem Escape.suffix {c : Char} (h : Escape cs c rest) : rest <:+ cs := by
  cases h with
  | unit hn => exact hn.suffix.trans (List.suffix_cons _ _)
  | pair hn _ hm =>
    have hmid := (List.suffix_append ['\\', 'u'] _).trans hn.suffix
    exact (hm.suffix.trans hmid).trans (List.suffix_cons _ _)
  | _ => exact List.suffix_cons _ _

private theorem Quoted.suffix {text : List Char} (h : Quoted cs text rest) : rest <:+ cs := by
  induction h with
  | close => exact List.suffix_cons _ _
  | plain _ _ _ _ ih => exact ih.trans (List.suffix_cons _ _)
  | escape hc _ ih => exact (ih.trans hc.suffix).trans (List.suffix_cons _ _)

private theorem Lead.suffix {first : Bool} (h : Lead first cs rest) : rest <:+ cs := by
  cases h with
  | first h => exact h.suffix
  | next hcomma h => exact (h.suffix.trans (List.suffix_cons _ _)).trans hcomma.suffix

private theorem Series.suffix {close : Char} {first : Bool} {xs : List α}
    (hspells : ∀ {start x rest}, spells start x rest → rest <:+ start) (h : Series close spells first cs xs rest) :
    close :: rest <:+ cs := by
  induction h with
  | nil h => exact h.suffix
  | cons hlead hx _ ih => exact (ih.trans (hspells hx)).trans hlead.suffix

private theorem Field.suffix {field : String × α} (hspells : ∀ {start x rest}, spells start x rest → rest <:+ start)
    (h : Field spells cs field rest) : rest <:+ cs := by
  obtain ⟨hkey, hcolon, hblanks, hx⟩ := h
  have hmid := (hspells hx).trans hblanks.suffix
  have hafter := hmid.trans ((List.suffix_cons _ _).trans hcolon.suffix)
  exact (hafter.trans hkey.suffix).trans (List.suffix_cons _ _)

private theorem suffix_of_scalar {v : Value} (h : Spelled cs v rest) (hlist : ∀ items, v ≠ .list items)
    (hrecord : ∀ fields, v ≠ .record fields) : rest <:+ cs := by
  cases h with
  | null => exact List.suffix_append ['n', 'u', 'l', 'l'] _
  | yes => exact List.suffix_append ['t', 'r', 'u', 'e'] _
  | no => exact List.suffix_append ['f', 'a', 'l', 's', 'e'] _
  | number _ hcs => exact hcs ▸ List.suffix_append _ _
  | text h => exact h.suffix.trans (List.suffix_cons _ _)
  | list => exact absurd rfl (hlist _)
  | record => exact absurd rfl (hrecord _)

private theorem SpelledWithin.suffix {depth : Nat} {v : Value} (h : SpelledWithin depth cs v rest) : rest <:+ cs := by
  induction depth generalizing cs v rest with
  | zero =>
    refine suffix_of_scalar h.1 ?_ ?_ <;>
    · rintro _ rfl
      cases h.2
  | succ depth ih =>
    cases h.1 with
    | list =>
      have hitems := (spelledWithin_list.mp h).suffix ih
      exact ((List.suffix_cons _ _).trans hitems).trans (List.suffix_cons _ _)
    | record =>
      have hfields := (spelledWithin_record.mp h).suffix (Field.suffix ih)
      exact ((List.suffix_cons _ _).trans hfields).trans (List.suffix_cons _ _)
    | _ => exact suffix_of_scalar h.1 (by rintro _ ⟨⟩) (by rintro _ ⟨⟩)

/-- A list or a record ends with the bracket that closes it. -/
theorem SpelledWithin.closes {depth : Nat} {v : Value} (h : SpelledWithin depth cs v rest)
    (hv : (∃ items, v = .list items) ∨ ∃ fields, v = .record fields) :
    ∃ close, (close = ']' ∨ close = '}') ∧ close :: rest <:+ cs := by
  cases depth with
  | zero =>
    obtain ⟨_, rfl⟩ | ⟨_, rfl⟩ := hv <;> cases h.2
  | succ depth =>
    obtain ⟨_, rfl⟩ | ⟨_, rfl⟩ := hv
    · cases h.1 with
      | list =>
        have hitems := (spelledWithin_list.mp h).suffix SpelledWithin.suffix
        exact ⟨']', .inl rfl, hitems.trans (List.suffix_cons _ _)⟩
    · cases h.1 with
      | record =>
        have hfields := (spelledWithin_record.mp h).suffix (Field.suffix SpelledWithin.suffix)
        exact ⟨'}', .inr rfl, hfields.trans (List.suffix_cons _ _)⟩

end Json

namespace Options
open Json

variable {cut more start rest : List Char}

private theorem readEntry_cut :
    Truncates readEntry (fun start e rest => ∃ v, SpelledWithin 124 start v rest ∧ Entry.ofValue v = e)
      InsideNumber := by
  rintro cut more start _ rest hblanks ⟨v, hv, rfl⟩ hrest
  exact (readValue_cut 124 hblanks hv hrest).map Entry.ofValue

private theorem readEntries_cut :
    Truncates readEntries (fun start entries rest => ∃ v, SpelledWithin 125 start v rest ∧ EntriesOf v entries)
      InsideNumber := by
  rintro cut more start entries rest hblanks ⟨_, hlist, items, rfl, hentries⟩ -
  cases hlist.1 with
  | list =>
    obtain hnil | ⟨left, hleft, rfl⟩ := hblanks.cut_off (by decide)
    · exact .inl (.inr (stopped_unfinished (by rw [readEntries, hnil]; rfl)))
    · have hitems := series_rel_iff.mpr ⟨items, spelledWithin_list.mp hlist, forall₂_map_eq_iff.mpr hentries⟩
      have hcut := readItems_cut reads_readEntry readEntry_cut hitems
      rw [readEntries, hleft]
      refine .inl (hcut.imp (.of_items ?_))
      rintro start _ rest ⟨v, hv, -⟩
      exact ⟨v, hv.1⟩

private theorem readModules_cut {modules : List (String × List Value)} (hblanks : Blanks (cut ++ more) start)
    (h : SpelledWithin 126 start (record modules) rest) :
    Cut (InsideNumber start more) more (ofModules modules) rest (readModules cut) := by
  have hspelled := h.1
  unfold record at hspelled h
  cases hspelled with
  | record =>
    obtain hnil | ⟨left, hleft, rfl⟩ := hblanks.cut_off (by decide)
    · exact .inr (stopped_unfinished (by rw [readModules, hnil]; rfl))
    · have hfields := fields_rel_iff.mpr ⟨_, spelledWithin_record.mp h, forall₂_lists_iff.mpr ⟨modules, rfl, rfl⟩⟩
      have hcut := readFields_cut reads_readEntries readEntries_cut hfields
      rw [readModules, hleft]
      refine (hcut.imp (.of_fields ?_)).bind fun left hrest _ => .inl ⟨left, hrest, rfl⟩
      rintro start _ rest ⟨v, hv, -⟩
      exact ⟨v, hv.1⟩

private theorem readEnd_cut (h : Blanks (cut ++ more) ('}' :: rest)) : Cut False more () rest (readEnd cut) := by
  obtain hnil | ⟨left, hleft, hrest⟩ := h.cut_off (by decide)
  · exact .inr (stopped_unfinished (by rw [readEnd, hnil]))
  · exact .inl ⟨left, hrest, by rw [readEnd, hleft]; rfl⟩

private theorem readRecord_cut {v : Value} {modules : List (String × List Value)}
    (h : SpelledWithin 127 ('{' :: (cut ++ more)) v rest) (hv : Holds v modules) :
    Cut (InsideNumber ('{' :: (cut ++ more)) more) more (ofModules modules) rest (readRecord cut) := by
  cases hv with
  | emptyRecord =>
    cases spelledWithin_record.mp h with
    | nil hend =>
      obtain hnil | ⟨left, hleft, hrest⟩ := hend.cut_off (by decide)
      · exact .inr (stopped_unfinished (by rw [readRecord, hnil]))
      · exact .inl ⟨left, hrest, by rw [readRecord, hleft]; rfl⟩
  | record =>
    cases spelledWithin_record.mp h with
    | cons hlead hfield hend =>
      obtain ⟨hblanks⟩ | ⟨⟩ := hlead
      cases hend with
      | nil hend =>
        generalize hf : ("pureCalls", record modules) = field at hfield
        obtain ⟨hname, hcolon, hstart, hrecord⟩ := hfield
        obtain ⟨hkey, rfl⟩ := Prod.mk.inj hf
        have hkey : _ = key := String.ofList_injective (hkey.symm.trans String.ofList_toList.symm)
        obtain hnil | ⟨left, hleft, rfl⟩ := hblanks.cut_off (by decide)
        · exact .inr (stopped_unfinished (by rw [readRecord, hnil]))
        rw [readRecord, hleft]
        refine ((readText_cut hname).imp False.elim).bind fun left hleft _ => ?_
        subst hleft
        dsimp only
        rw [if_neg (not_not.mpr hkey)]
        refine ((readColon_cut hcolon).imp False.elim).bind fun left hleft _ => ?_
        subst hleft
        have hinside {left : List Char} (hi : InsideNumber _ left) : InsideNumber ('{' :: (cut ++ more)) left :=
          .record (.here (.first hblanks)) hname hcolon hstart hi
        refine ((readModules_cut hstart hrecord).imp hinside).bind fun left hleft _ => ?_
        subst hleft
        exact ((readEnd_cut hend).imp False.elim).bind fun left hrest _ => .inl ⟨left, hrest, rfl⟩
  | emptyList => cases h.1
  | list => cases h.1

private theorem readTuple_cut {v : Value} {modules : List (String × List Value)}
    (h : SpelledWithin 127 ('[' :: (cut ++ more)) v rest) (hv : Holds v modules) :
    Cut (InsideNumber ('[' :: (cut ++ more)) more) more (ofModules modules) rest (readTuple cut) := by
  cases hv with
  | emptyRecord => cases h.1
  | record => cases h.1
  | emptyList =>
    cases spelledWithin_list.mp h with
    | nil hend =>
      obtain hnil | ⟨left, hleft, hrest⟩ := hend.cut_off (by decide)
      · exact .inr (stopped_unfinished (by rw [readTuple, hnil]))
      · exact .inl ⟨left, hrest, by rw [readTuple, hleft]; rfl⟩
  | list =>
    cases spelledWithin_list.mp h with
    | cons hlead hrecord hend =>
      obtain ⟨hblanks⟩ | ⟨⟩ := hlead
      obtain ⟨c, cs, rfl, hc, hclose⟩ := hrecord.starts
      cases hend with
      | nil hend =>
        obtain hnil | ⟨left, hleft, rfl⟩ := hblanks.cut_off hc
        · exact .inr (stopped_unfinished (by rw [readTuple, hnil]))
        rw [readTuple, hleft]
        split
        next heq => cases heq
        next heq => exact absurd (List.cons.inj heq).1 hclose
        next =>
          have hinside {left : List Char} (hi : InsideNumber _ left) : InsideNumber ('[' :: (cut ++ more)) left :=
            .list (.here (.first hblanks)) hi
          have hmodules := readModules_cut (show Blanks (c :: left ++ more) _ from .none) hrecord
          refine (hmodules.imp hinside).bind fun last hlast _ => ?_
          subst hlast
          dsimp only
          obtain hnil | ⟨final, hfinal, hrest⟩ := hend.cut_off (by decide)
          · exact .inr (stopped_unfinished (by rw [hnil]))
          · exact .inl ⟨final, hrest, by rw [hfinal]; rfl⟩

private theorem forall_blank (h : Blanks rest []) : ∀ c ∈ rest, isBlank c = true := by
  generalize hnil : [] = cs at h
  induction h with
  | none =>
    subst hnil
    exact List.forall_mem_nil _
  | some hc _ ih => exact List.forall_mem_cons.mpr ⟨hc, ih hnil⟩

private theorem readAll_cut {v : Value} {modules : List (String × List Value)} (hblanks : Blanks (cut ++ more) start)
    (h : SpelledWithin 127 start v rest) (hv : Holds v modules) (hrest : Blanks rest [])
    (hmore : ∃ c ∈ more, isBlank c = false) : Stopped (InsideNumber start more) (readAll cut) := by
  -- Only blanks may be left behind the value, but what is cut off is more than that.
  have hstop {x : Options} {inside : Prop} {result : Except Fault (Options × List Char)}
      (hcut : Cut inside more x rest result) : Stopped inside result := by
    obtain ⟨left, rfl, -⟩ | hstop := hcut
    · obtain ⟨c, hc, hblank⟩ := hmore
      rw [forall_blank hrest c (List.mem_append_right _ hc)] at hblank
      cases hblank
    · exact hstop
  cases h.1 with
  | record =>
    obtain hnil | ⟨left, hleft, rfl⟩ := hblanks.cut_off (by decide)
    · exact stopped_unfinished (by rw [readAll, hnil]; rfl)
    · rw [readAll, hleft]
      exact (hstop (readRecord_cut h hv)).bind _
  | list =>
    obtain hnil | ⟨left, hleft, rfl⟩ := hblanks.cut_off (by decide)
    · exact stopped_unfinished (by rw [readAll, hnil]; rfl)
    · rw [readAll, hleft]
      exact (hstop (readTuple_cut h hv)).bind _
  | _ => cases hv

/-- A text spells a value from `start` on, and `before` is all that stands in front of the bracket that closes it. -/
def Encloses (text start before : List Char) : Prop :=
  ∃ v close after, Blanks text start ∧ Spelled start v after ∧ Blanks after [] ∧ (close = ']' ∨ close = '}') ∧
    text = before ++ close :: after

private theorem skipBlanks_of_spelled {text : List Char} {v : Value} (hblanks : Blanks text start)
    (h : Spelled start v rest) : skipBlanks text = start := by
  obtain ⟨c, cs, rfl, hc, -⟩ := h.starts
  exact hblanks.skipBlanks_cons hc

private theorem exists_encloses {text : List Char} {v : Value} {modules : List (String × List Value)}
    (hblanks : Blanks text start) (h : SpelledWithin 127 start v rest) (hv : Holds v modules)
    (hrest : Blanks rest []) : ∃ before, Encloses text start before := by
  have hkind : (∃ items, v = .list items) ∨ ∃ fields, v = .record fields := by
    cases hv with
    | emptyRecord | record => exact .inr ⟨_, rfl⟩
    | emptyList | list => exact .inl ⟨_, rfl⟩
  obtain ⟨close, hclose, hsuffix⟩ := h.closes hkind
  obtain ⟨before, htext⟩ := hsuffix.trans hblanks.suffix
  exact ⟨before, v, close, rest, hblanks, h.1, hrest, hclose, htext.symm⟩

/-- A text that is read as options has a bracket that closes the whole, and every beginning of it that ends in front of
that bracket is refused: as unfinished, unless it ends inside a number. -/
theorem ofText_cut_off {text : String} {o : Options} (h : ofText text = .ok o) :
    (∃ start before, Encloses text.toList start before) ∧
      ∀ start before, Encloses text.toList start before → ∀ cut : String, cut.toList <+: before →
        ∃ fault, ofText cut = .error fault ∧
          (fault.category = "eof" ∨ InsideNumber start (text.toList.drop cut.toList.length)) := by
  obtain ⟨start, v, rest, modules, hblanks, hv, hrest, hmodules, -⟩ := readAll_eq_ok.mp h
  obtain ⟨before, hencloses⟩ := exists_encloses hblanks hv hmodules hrest
  refine ⟨⟨start, before, hencloses⟩, ?_⟩
  rintro start' before' ⟨v', close, after, hblanks', hv', hafter, hclose, htext⟩ cut ⟨behind, rfl⟩
  have hstart : start' = start :=
    (skipBlanks_of_spelled hblanks' hv').symm.trans (skipBlanks_of_spelled hblanks hv.1)
  have hmore : ∃ c ∈ behind ++ close :: after, isBlank c = false := by
    refine ⟨close, by simp, ?_⟩
    obtain rfl | rfl := hclose <;> decide
  rw [List.append_assoc] at htext
  rw [htext] at hblanks
  obtain ⟨fault, hread, hfault⟩ := readAll_cut hblanks hv hmodules hrest hmore
  refine ⟨fault, hread, ?_⟩
  rw [hstart, htext, List.drop_left]
  exact hfault.imp_left (congrArg Fault.category)

/-- The text `[{"m":[12]}]`. -/
def numbered : List Char :=
  ['[', '{', '"', 'm', '"', ':', '[', '1', '2', ']', '}', ']']

theorem ofText_cut_off_numbered : ∃ o, ofText (String.ofList numbered) = .ok o ∧
    (∃ fault, ofText (String.ofList (numbered.take 4)) = .error fault ∧ fault.category = "eof") ∧
    ∃ fault, ofText (String.ofList (numbered.take 8)) = .error fault ∧
      (fault.category = "eof" ∨ InsideNumber numbered ['2', ']', '}', ']']) := by
  have hkey (rest : List Char) : Quoted ('m' :: '"' :: rest) ['m'] rest :=
    @Quoted.of_plain ['m'] rfl rest
  have hlist : Spelled ['[', '1', '2', ']', '}', ']'] (.list [.number (String.ofList ['1', '2'])]) ['}', ']'] :=
    .list (.cons (.first .none) (.number twelve_isNumber rfl) (.nil .none))
  have hrecord := Spelled.record (.cons (.first .none) (.mk (hkey _) .none .none hlist) (.nil .none))
  have hspelled : Spelled numbered (.list [record [("m", [.number (String.ofList ['1', '2'])])]]) [] :=
    .list (.cons (.first .none) hrecord (.nil .none))
  have hnested : (Value.list [record [("m", [.number (String.ofList ['1', '2'])])]]).Nested IsFinite 127 := by
    refine .list (List.forall_mem_singleton.mpr (.record (List.forall_mem_singleton.mpr (.list ?_))))
    exact List.forall_mem_singleton.mpr (.number (String.toList_ofList ▸ twelve_ofSize.isFinite))
  have htext : (String.ofList numbered).toList = numbered := String.toList_ofList
  have hread : ofText (String.ofList numbered) = .ok _ :=
    ofText_eq_ok.mpr ⟨_, _, ⟨numbered, [], htext ▸ .none, hspelled, .none⟩, hnested, .list, rfl⟩
  obtain ⟨-, hcut⟩ := ofText_cut_off hread
  rw [htext] at hcut
  have hencloses : Encloses numbered numbered (numbered.take 11) :=
    ⟨_, ']', [], .none, hspelled, .none, .inl rfl, rfl⟩
  have hbegins (n : Nat) (hn : n ≤ 11) : (String.ofList (numbered.take n)).toList <+: numbered.take 11 := by
    rw [String.toList_ofList]
    exact List.take_prefix_take_left hn
  obtain ⟨fault, hfour, heof⟩ := hcut _ _ hencloses (String.ofList (numbered.take 4)) (hbegins 4 (by decide))
  have height := hcut _ _ hencloses (String.ofList (numbered.take 8)) (hbegins 8 (by decide))
  rw [String.toList_ofList] at heof height
  refine ⟨_, hread, ⟨fault, hfour, heof.resolve_right fun hinside => ?_⟩, height⟩
  -- The key that is cut off goes on with a quote.
  obtain ⟨c, cs, hleft, hc⟩ := hinside.head
  obtain ⟨rfl, -⟩ := List.cons.inj (show '"' :: _ = c :: cs from hleft)
  exact absurd hc (by simp [InNumbers])

end Options
end PureCalls
