import ContextFree.Vocabulary.Split
import Std.Data.TreeSet

/-!
# Unique decodability

A vocabulary is uniquely decodable when no text is spelled by two different sequences of its
symbols.  The test follows overhangs: when two sequences are written above each other and one of
them is longer, the overhang is what the longer one has beyond the shorter one.  Two sequences
meet exactly when the empty overhang can be reached.

Every overhang is an end of a symbol (`Chase.ofEnds_start`, `Chase.OfEnds.round`).  Each round of
the search either settles the question or follows at least one end that has not been followed
before (`Chase.length_unfollowed_round`), which is why the search comes to an end.
-/

namespace ContextFree

namespace Vocabulary

/-! ## Overhangs -/

/-- What a symbol leaves over an overhang, or the overhang over the symbol, if one of them begins
the other. -/
def overhang? (overhang : Text) (s : Symbol) : Option Text :=
  (s.text.after? overhang).or (overhang.after? s.text)

/-- The overhangs of one symbol over another: proper beginnings only. -/
def firstOverhangs (v : Vocabulary) : List Text :=
  v.flatMap fun a => v.filterMap fun b => (b.text.after? a.text).filter (!·.isEmpty)

/-- The overhangs that come from the given ones by one more symbol. -/
def follow (v : Vocabulary) (overhangs : List Text) : List Text :=
  overhangs.flatMap fun overhang => v.filterMap (overhang? overhang)

/-- Whether a text is an end of a symbol of the vocabulary. -/
def IsEnd (v : Vocabulary) (text : Text) : Prop := ∃ s ∈ v, text <:+ s.text

/-- An end of an end is an end. -/
theorem IsEnd.of_suffix {v : Vocabulary} {text last : Text} (h : v.IsEnd text)
    (hlast : last <:+ text) : v.IsEnd last :=
  h.imp fun _ hs => ⟨hs.1, hlast.trans hs.2⟩

theorem isEnd_of_after? {v : Vocabulary} {text beginning rest : Text} (h : v.IsEnd text)
    (hrest : text.after? beginning = some rest) : v.IsEnd rest :=
  h.of_suffix ⟨beginning, (Text.after?_eq_some.1 hrest).symm⟩

theorem isEnd_of_mem_firstOverhangs {v : Vocabulary} {d : Text} (h : d ∈ v.firstOverhangs) :
    v.IsEnd d := by
  simp only [firstOverhangs, List.mem_flatMap, List.mem_filterMap, Option.filter_eq_some_iff] at h
  obtain ⟨_, _, b, hb, hd, _⟩ := h
  exact isEnd_of_after? ⟨b, hb, List.suffix_refl _⟩ hd

theorem isEnd_of_mem_follow {v : Vocabulary} {overhangs : List Text} {d : Text}
    (hends : ∀ e ∈ overhangs, v.IsEnd e) (h : d ∈ v.follow overhangs) : v.IsEnd d := by
  simp only [follow, List.mem_flatMap, List.mem_filterMap, overhang?, Option.or_eq_some_iff] at h
  obtain ⟨e, he, s, hs, hd | ⟨_, hd⟩⟩ := h
  · exact isEnd_of_after? ⟨s, hs, List.suffix_refl _⟩ hd
  · exact isEnd_of_after? (hends e he) hd

/-! ## The search -/

/-- A state of the search for two sequences that meet. -/
structure Chase where
  overhangs : Std.TreeSet Text Text.order
  followed : Std.TreeSet Text Text.order

namespace Chase

/-- The search begins with the overhangs of single symbols and has followed none. -/
def start (v : Vocabulary) : Chase := ⟨.ofList v.firstOverhangs Text.order, ∅⟩

/-- The overhangs of a state that have not been followed yet. -/
def fresh (chase : Chase) : List Text := chase.overhangs.toList.filter (· ∉ chase.followed)

/-- One round of the search.  The empty overhang settles it: two sequences meet.  So does the
lack of overhangs that are new.  Otherwise the new ones are followed by one more symbol. -/
def round (v : Vocabulary) (chase : Chase) : Bool ⊕ Chase :=
  if [] ∈ chase.overhangs then .inl false
  else
    match chase.fresh with
    | [] => .inl true
    | fresh => .inr ⟨.ofList (v.follow fresh) Text.order, chase.followed.insertMany fresh⟩

theorem mem_fresh {chase : Chase} {d : Text} :
    d ∈ chase.fresh ↔ d ∈ chase.overhangs ∧ d ∉ chase.followed := by
  simp [fresh]

theorem round_eq_inr {v : Vocabulary} {chase next : Chase} :
    chase.round v = .inr next ↔ [] ∉ chase.overhangs ∧ chase.fresh ≠ [] ∧
      next = ⟨.ofList (v.follow chase.fresh) Text.order,
        chase.followed.insertMany chase.fresh⟩ := by
  unfold round
  split
  · next hempty => simp [hempty]
  · next hempty =>
    split
    · next hfresh => simp [hfresh]
    · next hfresh =>
      exact ⟨fun h => ⟨hempty, hfresh, (Sum.inr.inj h).symm⟩, fun h => h.2.2 ▸ rfl⟩

/-- Whether all overhangs of a state are ends of symbols. -/
def OfEnds (v : Vocabulary) (chase : Chase) : Prop := ∀ d ∈ chase.overhangs, v.IsEnd d

theorem ofEnds_start (v : Vocabulary) : (start v).OfEnds v := fun _ hd =>
  isEnd_of_mem_firstOverhangs (by simpa [start, Std.TreeSet.mem_ofList] using hd)

theorem OfEnds.round {v : Vocabulary} {chase next : Chase} (hends : chase.OfEnds v)
    (h : chase.round v = .inr next) : next.OfEnds v := by
  obtain ⟨_, _, rfl⟩ := round_eq_inr.1 h
  intro d hd
  exact isEnd_of_mem_follow (fun e he => hends e (mem_fresh.1 he).1)
    (by simpa [Std.TreeSet.mem_ofList] using hd)

/-- The ends of symbols that have not been followed yet.  The empty end is not among them. -/
def unfollowed (v : Vocabulary) (chase : Chase) : List Text :=
  (v.flatMap fun s => s.text.ends).eraseDups.filter (· ∉ chase.followed)

/-- A round that does not settle the search has something new to follow, and this is an end of a
symbol that is not empty. -/
theorem OfEnds.exists_fresh {v : Vocabulary} {chase next : Chase} (hends : chase.OfEnds v)
    (h : chase.round v = .inr next) : ∃ d ∈ chase.fresh, d ≠ [] ∧ v.IsEnd d := by
  obtain ⟨hempty, hfresh, -⟩ := round_eq_inr.1 h
  obtain ⟨d, hd⟩ := List.exists_mem_of_ne_nil _ hfresh
  have hmem : d ∈ chase.overhangs := (mem_fresh.1 hd).1
  exact ⟨d, hd, fun hnil => hempty (hnil ▸ hmem), hends d hmem⟩

/-- A round that does not settle the search follows an end that was not followed before. -/
theorem length_unfollowed_round {v : Vocabulary} {chase next : Chase} (hends : chase.OfEnds v)
    (h : chase.round v = .inr next) :
    (unfollowed v next).length < (unfollowed v chase).length := by
  obtain ⟨d, hd, hne, s, hs, hsuffix⟩ := hends.exists_fresh h
  obtain ⟨-, -, rfl⟩ := round_eq_inr.1 h
  have hunfollowed : d ∈ unfollowed v chase := by
    simpa [unfollowed, (mem_fresh.1 hd).2] using ⟨s, hs, Text.mem_ends.2 ⟨hne, hsuffix⟩⟩
  have hfilter : unfollowed v ⟨.ofList (v.follow chase.fresh) Text.order,
      chase.followed.insertMany chase.fresh⟩ = (unfollowed v chase).filter (· ∉ chase.fresh) := by
    simp [unfollowed, List.filter_filter, Std.TreeSet.mem_insertMany_list, Bool.and_comm]
  rw [hfilter]
  exact List.length_filter_lt_length_iff_exists.2 ⟨d, hunfollowed, by simpa using hd⟩

/-- Follows overhangs until the question is settled. -/
def settle (v : Vocabulary) (chase : Chase) (hends : chase.OfEnds v) : Bool :=
  match hround : chase.round v with
  | .inl verdict => verdict
  | .inr next => next.settle v (hends.round hround)
termination_by (unfollowed v chase).length
decreasing_by exact length_unfollowed_round hends hround

end Chase

/-- Whether no text is spelled by two different sequences of symbols.  The empty symbol can be
left out and put in anywhere, so no vocabulary with it qualifies. -/
def isDecodable (v : Vocabulary) : Bool :=
  ⟨[]⟩ ∉ v && (Chase.start v).settle v (Chase.ofEnds_start v)

end Vocabulary

end ContextFree
