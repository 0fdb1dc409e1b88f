import Mathlib.Tactic.Common
import Mathlib.Data.List.Forall2

/-!
# Paging through a changing collection

A collection of keyed entries is read page by page: each page has the first `n` entries
beyond the last key of the page before it, and the loop ends with a page that is not
full. The collection may be another one at each read (`views`). No key is lost and none
comes twice, whatever happens between the pages.
-/

namespace DLmdb.Framework

variable {κ ν : Type} [Ord κ]

def Increasing (l : List (κ × ν)) : Prop := l.Pairwise (fun a b => compare a.1 b.1 = .lt)

/-- Is `k` beyond the exclusive lower bound? -/
def beyond (after : Option κ) (k : κ) : Bool := after.all (fun a => compare a k == .lt)

def pageOf (n : ℕ) (after : Option κ) (view : List (κ × ν)) : List (κ × ν) :=
  (view.filter (fun e => beyond after e.1)).take n

/-- The pages read so far, and whether the loop has ended. -/
structure Pages (κ ν : Type) where
  read : List (List (κ × ν))
  ended : Bool

def Pages.entries (p : Pages κ ν) : List (κ × ν) := p.read.flatten

def lastKey (page : List (κ × ν)) : Option κ := page.getLast?.map Prod.fst

/-- The loop, over what the collection is at each of its reads. -/
def paginate (n : ℕ) : Option κ → List (List (κ × ν)) → Pages κ ν
  | _, [] => ⟨[], false⟩
  | after, view :: views =>
      let page := pageOf n after view
      if page.length < n then ⟨[page], true⟩
      else
        let rest := paginate n (lastKey page) views
        ⟨page :: rest.read, rest.ended⟩

theorem paginate_of_short {n : ℕ} {after : Option κ} {view : List (κ × ν)}
    (h : (pageOf n after view).length < n) (views : List (List (κ × ν))) :
    paginate n after (view :: views) = ⟨[pageOf n after view], true⟩ := if_pos h

theorem paginate_of_full {n : ℕ} {after : Option κ} {view : List (κ × ν)}
    (h : ¬ (pageOf n after view).length < n) (views : List (List (κ × ν))) :
    paginate n after (view :: views) =
      ⟨pageOf n after view :: (paginate n (lastKey (pageOf n after view)) views).read,
        (paginate n (lastKey (pageOf n after view)) views).ended⟩ := if_neg h

theorem beyond_some {a k : κ} : beyond (some a) k = true ↔ compare a k = .lt := by
  simp [beyond]

theorem mem_pageOf {n : ℕ} {after : Option κ} {view : List (κ × ν)} {e : κ × ν}
    (h : e ∈ pageOf n after view) : e ∈ view ∧ beyond after e.1 = true :=
  List.mem_filter.mp (List.mem_of_mem_take h)

theorem Increasing.pageOf {view : List (κ × ν)} (h : Increasing view) (n : ℕ)
    (after : Option κ) : Increasing (pageOf n after view) :=
  (List.Pairwise.filter _ h).sublist (List.take_sublist n _)

omit [Ord κ] in
/-- A full page has a last key. -/
theorem exists_lastKey {n : ℕ} (hn : 0 < n) {page : List (κ × ν)} (hfull : ¬ page.length < n) :
    ∃ init e, page = init ++ [e] ∧ lastKey page = some e.1 := by
  rcases List.eq_nil_or_concat' page with rfl | ⟨init, e, rfl⟩
  · exact absurd hn hfull
  · exact ⟨init, e, rfl, by simp [lastKey]⟩

variable [Std.TransOrd κ]

theorem beyond_trans {after : Option κ} {a k : κ} (ha : beyond after a = true)
    (hak : compare a k = .lt) : beyond after k = true := by
  cases after with
  | none => rfl
  | some b => exact beyond_some.mpr (Std.TransCmp.lt_trans (beyond_some.mp ha) hak)

theorem Increasing.nodup_keys {l : List (κ × ν)} (h : Increasing l) :
    (l.map Prod.fst).Nodup := by
  rw [List.nodup_iff_pairwise_ne, List.pairwise_map]
  refine h.imp (fun {a b} hlt heq => ?_)
  rw [heq, Std.compare_self] at hlt
  cases hlt

theorem Increasing.nodup {l : List (κ × ν)} (h : Increasing l) : l.Nodup := by
  have hkeys := List.pairwise_map.mp (List.nodup_iff_pairwise_ne.mp h.nodup_keys)
  exact hkeys.imp (fun hne heq => hne (congrArg Prod.fst heq))

/-- Increasing lists with the same entries are the same list. -/
theorem Increasing.ext {l l' : List (κ × ν)} (h : Increasing l) (h' : Increasing l')
    (hmem : ∀ e, e ∈ l ↔ e ∈ l') : l = l' := by
  have hperm : l.Perm l' := (List.perm_ext_iff_of_nodup h.nodup h'.nodup).mpr hmem
  refine hperm.eq_of_pairwise ?_ h h'
  intro a b _ _ hab hba
  have hself := Std.TransCmp.lt_trans hab hba
  rw [Std.compare_self] at hself
  cases hself

/-- No entry of a page is beyond its last key. -/
theorem isLE_lastKey {init : List (κ × ν)} {e x : κ × ν} (h : Increasing (init ++ [e]))
    (hx : x ∈ init ++ [e]) : (compare x.1 e.1).isLE := by
  rcases List.mem_append.mp hx with hinit | hlast
  · exact Ordering.isLE_of_eq_lt
      ((List.pairwise_append.mp h).2.2 x hinit e List.mem_cons_self)
  · rw [List.mem_singleton.mp hlast, Std.compare_self]
    rfl

/-! ## What the pages have -/

/-- **Order**: the entries of all pages are increasing, and beyond the start. -/
theorem paginate_increasing {n : ℕ} (hn : 0 < n) {views : List (List (κ × ν))}
    (hviews : ∀ view ∈ views, Increasing view) (after : Option κ) :
    Increasing (paginate n after views).entries ∧
      ∀ e ∈ (paginate n after views).entries, beyond after e.1 = true := by
  induction views generalizing after with
  | nil => exact ⟨List.Pairwise.nil, nofun⟩
  | cons view views ih =>
      have hpage := (hviews view List.mem_cons_self).pageOf n after
      by_cases hshort : (pageOf n after view).length < n
      · rw [paginate_of_short hshort, Pages.entries, List.flatten_singleton]
        exact ⟨hpage, fun e he => (mem_pageOf he).2⟩
      · obtain ⟨init, last, heq, hlast⟩ := exists_lastKey hn hshort
        obtain ⟨hrest, hbeyond⟩ := ih (fun v hv => hviews v (List.mem_cons_of_mem _ hv))
          (lastKey (pageOf n after view))
        have hmem : last ∈ pageOf n after view := by
          rw [heq]
          exact List.mem_append_right _ List.mem_cons_self
        have hlastAfter : beyond after last.1 = true := (mem_pageOf hmem).2
        rw [paginate_of_full hshort, Pages.entries, List.flatten_cons]
        constructor
        · refine List.pairwise_append.mpr ⟨hpage, hrest, ?_⟩
          -- a later page is beyond the last key of this one
          intro a ha b hb
          have hlt := hbeyond b hb
          rw [hlast, beyond_some] at hlt
          rw [heq] at ha hpage
          exact Std.TransCmp.lt_of_isLE_of_lt (isLE_lastKey hpage ha) hlt
        · intro e he
          rcases List.mem_append.mp he with he | he
          · exact (mem_pageOf he).2
          · have hlt := hbeyond e he
            rw [hlast, beyond_some] at hlt
            exact beyond_trans hlastAfter hlt

omit [Std.TransOrd κ] in
/-- **Soundness**: each page is taken from what the collection was at its read. -/
theorem paginate_sound (n : ℕ) (after : Option κ) (views : List (List (κ × ν))) :
    List.Forall₂ (fun page view => ∀ e ∈ page, e ∈ view) (paginate n after views).read
      (views.take (paginate n after views).read.length) := by
  induction views generalizing after with
  | nil => exact List.Forall₂.nil
  | cons view views ih =>
      by_cases hshort : (pageOf n after view).length < n
      · rw [paginate_of_short hshort]
        exact List.Forall₂.cons (fun e he => (mem_pageOf he).1) List.Forall₂.nil
      · rw [paginate_of_full hshort]
        exact List.Forall₂.cons (fun e he => (mem_pageOf he).1) (ih _)

omit [Std.TransOrd κ] in
theorem mem_paginate {n : ℕ} {after : Option κ} {views : List (List (κ × ν))} {e : κ × ν}
    (h : e ∈ (paginate n after views).entries) : ∃ view ∈ views, e ∈ view := by
  obtain ⟨page, hpage, he⟩ := List.mem_flatten.mp h
  obtain ⟨i, hi, rfl⟩ := List.getElem_of_mem hpage
  have hsound := List.forall₂_iff_get.mp (paginate_sound n after views)
  have hi' : i < (views.take (paginate n after views).read.length).length := hsound.1 ▸ hi
  refine ⟨_, List.mem_of_mem_take (List.getElem_mem hi'), ?_⟩
  exact hsound.2 i hi hi' e he

omit [Std.TransOrd κ] in
/-- **Completeness**: a loop that has ended returned every key that was there at each of
its reads. -/
theorem paginate_complete {n : ℕ} (hn : 0 < n) {views : List (List (κ × ν))}
    (hviews : ∀ view ∈ views, Increasing view) {after : Option κ}
    (hended : (paginate n after views).ended = true) {k : κ} (hk : beyond after k = true)
    (hthere : ∀ view ∈ views.take (paginate n after views).read.length, ∃ v, (k, v) ∈ view) :
    ∃ v, (k, v) ∈ (paginate n after views).entries := by
  induction views generalizing after with
  | nil => cases hended
  | cons view views ih =>
      have hin : ∀ v, (k, v) ∈ view → (k, v) ∈ view.filter (fun e => beyond after e.1) :=
        fun v hv => List.mem_filter.mpr ⟨hv, hk⟩
      by_cases hshort : (pageOf n after view).length < n
      · rw [paginate_of_short hshort] at hthere ⊢
        obtain ⟨v, hv⟩ := hthere view List.mem_cons_self
        have hall : pageOf n after view = view.filter (fun e => beyond after e.1) := by
          refine List.take_of_length_le ?_
          rw [pageOf, List.length_take] at hshort
          omega
        refine ⟨v, ?_⟩
        rw [Pages.entries, List.flatten_singleton, hall]
        exact hin v hv
      · obtain ⟨init, last, heq, hlast⟩ := exists_lastKey hn hshort
        rw [paginate_of_full hshort] at hended hthere ⊢
        obtain ⟨v, hv⟩ := hthere view List.mem_cons_self
        have hv := hin v hv
        rw [Pages.entries, List.flatten_cons]
        by_cases hkl : compare last.1 k = .lt
        · -- further on
          have hbeyond : beyond (lastKey (pageOf n after view)) k = true := by
            rw [hlast]
            exact beyond_some.mpr hkl
          obtain ⟨v', hv'⟩ := ih (fun v hv => hviews v (List.mem_cons_of_mem _ hv)) hended hbeyond
            (fun view' hview' => hthere view' (List.mem_cons_of_mem _ hview'))
          exact ⟨v', List.mem_append_right _ hv'⟩
        · -- not beyond the last key: on this page
          refine ⟨v, List.mem_append_left _ ?_⟩
          have hinc : Increasing (view.filter (fun e => beyond after e.1)) :=
            List.Pairwise.filter _ (hviews view List.mem_cons_self)
          rw [← List.take_append_drop n (view.filter (fun e => beyond after e.1))] at hv hinc
          rcases List.mem_append.mp hv with hpage | hdrop
          · exact hpage
          · refine absurd ((List.pairwise_append.mp hinc).2.2 last ?_ (k, v) hdrop) hkl
            show last ∈ pageOf n after view
            rw [heq]
            exact List.mem_append_right _ List.mem_cons_self

/-- Beyond the last key of a full page lies what the page left out. -/
theorem filter_beyond_lastKey {n : ℕ} {after : Option κ} {view init : List (κ × ν)}
    {last : κ × ν} (hview : Increasing view) (heq : pageOf n after view = init ++ [last]) :
    view.filter (fun e => beyond (some last.1) e.1) =
      (view.filter (fun e => beyond after e.1)).drop n := by
  have hlast : last ∈ pageOf n after view := by
    rw [heq]
    exact List.mem_append_right _ List.mem_cons_self
  have hpage := hview.pageOf n after
  rw [heq] at hpage
  have hboth : view.filter (fun e => beyond (some last.1) e.1) =
      (view.filter (fun e => beyond after e.1)).filter (fun e => beyond (some last.1) e.1) := by
    rw [List.filter_filter]
    refine List.filter_congr (fun e _ => ?_)
    cases hb : beyond (some last.1) e.1 with
    | false => rfl
    | true => exact (beyond_trans (mem_pageOf hlast).2 (beyond_some.mp hb)).symm
  have hinc : Increasing (view.filter (fun e => beyond after e.1)) := List.Pairwise.filter _ hview
  rw [hboth]
  rw [← List.take_append_drop n (view.filter (fun e => beyond after e.1))] at hinc
  conv_lhs => rw [← List.take_append_drop n (view.filter (fun e => beyond after e.1))]
  rw [List.filter_append]
  have hnone : ((view.filter (fun e => beyond after e.1)).take n).filter
      (fun e => beyond (some last.1) e.1) = [] := by
    rw [List.filter_eq_nil_iff]
    intro e he hb
    have he' : e ∈ init ++ [last] := heq ▸ he
    exact Std.OrientedCmp.not_isLE_of_lt (beyond_some.mp hb) (isLE_lastKey hpage he')
  have hall : ((view.filter (fun e => beyond after e.1)).drop n).filter
      (fun e => beyond (some last.1) e.1) = (view.filter (fun e => beyond after e.1)).drop n := by
    rw [List.filter_eq_self]
    intro e he
    exact beyond_some.mpr ((List.pairwise_append.mp hinc).2.2 last hlast e he)
  rw [hnone, hall, List.nil_append]

/-- **An unchanged collection** is read through, in enough pages for its size. -/
theorem paginate_const {n : ℕ} (hn : 0 < n) {view : List (κ × ν)} (hview : Increasing view)
    {views : List (List (κ × ν))} (hconst : ∀ v ∈ views, v = view) {after : Option κ}
    (hlen : (view.filter (fun e => beyond after e.1)).length < n * views.length) :
    (paginate n after views).ended = true ∧
      (paginate n after views).entries = view.filter (fun e => beyond after e.1) := by
  induction views generalizing after with
  | nil => exact absurd hlen (Nat.not_lt_zero _)
  | cons v views ih =>
      obtain rfl := hconst v List.mem_cons_self
      by_cases hshort : (pageOf n after v).length < n
      · rw [paginate_of_short hshort, Pages.entries, List.flatten_singleton]
        refine ⟨rfl, List.take_of_length_le ?_⟩
        rw [pageOf, List.length_take] at hshort
        omega
      · obtain ⟨init, last, heq, hlast⟩ := exists_lastKey hn hshort
        have hrest := filter_beyond_lastKey hview heq
        have hlen' : (v.filter (fun e => beyond (lastKey (pageOf n after v)) e.1)).length <
            n * views.length := by
          rw [hlast, hrest, List.length_drop]
          rw [List.length_cons, Nat.mul_succ] at hlen
          rw [pageOf, List.length_take] at hshort
          omega
        obtain ⟨hended, hentries⟩ := ih (fun w hw => hconst w (List.mem_cons_of_mem _ hw)) hlen'
        rw [paginate_of_full hshort, Pages.entries, List.flatten_cons]
        refine ⟨hended, ?_⟩
        rw [Pages.entries] at hentries
        rw [hentries, hlast, hrest]
        exact List.take_append_drop n _

end DLmdb.Framework
