/-!
Address windows.

A window is a base address and a size; it reaches up to, and not including, its stop.  The stop
of a window that would pass the last address is that last address.  A window set is a list of
windows; `WindowSet.ofList` puts it into order, drops empty windows and joins windows that
overlap or touch.
-/

namespace Negotiation

/-- A run of addresses. -/
structure Window where
  base : UInt64
  size : UInt64
deriving DecidableEq, Inhabited

namespace Window

/-- The last address there is. -/
def lastAddress : Nat := UInt64.size - 1

/-- The first address after the window, or the last address where that lies beyond it. -/
def stop (w : Window) : UInt64 :=
  UInt64.ofNat (min (w.base.toNat + w.size.toNat) lastAddress)

theorem stop_toNat (w : Window) :
    w.stop.toNat = min (w.base.toNat + w.size.toNat) lastAddress := by
  have hlt : min (w.base.toNat + w.size.toNat) lastAddress < UInt64.size := by
    simp only [lastAddress, UInt64.size]
    omega
  simpa [stop] using Nat.mod_eq_of_lt hlt

theorem base_le_stop (w : Window) : w.base ≤ w.stop := by
  rw [UInt64.le_iff_toNat_le, stop_toNat]
  have := w.base.toNat_lt
  simp only [lastAddress, UInt64.size]
  omega

/-- Whether an address lies in the window. -/
def contains (w : Window) (address : UInt64) : Bool :=
  w.base ≤ address && address < w.stop

/-- The window from one address up to another that does not lie before it. -/
def upTo (base stop : UInt64) : Window := ⟨base, stop - base⟩

theorem upTo_stop {base stop : UInt64} (h : base ≤ stop) : (upTo base stop).stop = stop := by
  apply UInt64.toNat.inj
  rw [stop_toNat, upTo, UInt64.toNat_sub_of_le _ _ h]
  rw [UInt64.le_iff_toNat_le] at h
  have := stop.toNat_lt
  simp only [lastAddress, UInt64.size]
  omega

/-- Windows are ordered by base, windows of one base by size. -/
def precedes (a b : Window) : Bool :=
  a.base < b.base || (a.base == b.base && a.size ≤ b.size)

/-- The common part of two windows, if it is not empty. -/
def common? (a b : Window) : Option Window :=
  let base := max a.base b.base
  let stop := min a.stop b.stop
  if base < stop then some (upTo base stop) else none

end Window

/-- The windows that are not empty, by base and size. -/
def orderWindows (ws : List Window) : List Window :=
  (ws.filter fun w => 0 < w.size).mergeSort Window.precedes

theorem mem_orderWindows {w : Window} {ws : List Window} :
    w ∈ orderWindows ws ↔ w ∈ ws ∧ 0 < w.size := by
  rw [orderWindows, List.mem_mergeSort, List.mem_filter, decide_eq_true_iff]

/-- Join each window with those that follow it in order and start no later than it stops. -/
def joinFrom (last : Window) : List Window → List Window
  | [] => [last]
  | w :: rest =>
      if w.base ≤ last.stop then joinFrom (.upTo last.base (max last.stop w.stop)) rest
      else last :: joinFrom w rest

/-- Join ordered windows that overlap or touch. -/
def joinWindows : List Window → List Window
  | [] => []
  | w :: rest => joinFrom w rest

/-- The common parts of the window `w` with the windows of a list, up to the first that reaches
as far as `w`; from there on `rest` continues. -/
def commonWith (w : Window) (rest : List Window → List Window) : List Window → List Window
  | [] => []
  | v :: vs =>
      (w.common? v).toList ++ if w.stop ≤ v.stop then rest (v :: vs) else commonWith w rest vs

/-- The common parts of two lists of windows, found in one walk along both: the window that
stops first is left behind. -/
def commonWindows : List Window → List Window → List Window
  | [] => fun _ => []
  | w :: ws => commonWith w (commonWindows ws)

/-- A set of addresses as a list of windows. -/
structure WindowSet where
  windows : List Window
deriving DecidableEq, Inhabited

namespace WindowSet

def empty : WindowSet := ⟨[]⟩

/-- The set of the addresses of some windows: ordered, without empty windows, and joined. -/
def ofList (ws : List Window) : WindowSet :=
  ⟨joinWindows (orderWindows ws)⟩

def isEmpty (s : WindowSet) : Bool :=
  s.windows.isEmpty

def contains (s : WindowSet) (address : UInt64) : Bool :=
  s.windows.any (·.contains address)

def union (s t : WindowSet) : WindowSet :=
  ofList (s.windows ++ t.windows)

def intersect (s t : WindowSet) : WindowSet :=
  ⟨commonWindows s.windows t.windows⟩

end WindowSet

end Negotiation
