import Recurrence.Zone.Basic

/-! The table of zones that the program runs with, a part of all that have a name. A list of changes
is the whole history of its zone, but that of São Paulo begins in 2013. A rule for every year covers
the years from 2013 to 2099: the clocks of its zone were turned by others before. -/

namespace Recurrence

namespace Zone

def tokyo : Zone :=
  .changing 33539 [
    change 1887 12 31 15 0 0 32400,
    change 1948 5 1 15 0 0 36000,
    change 1948 9 11 15 0 0 32400,
    change 1949 4 2 15 0 0 36000,
    change 1949 9 10 15 0 0 32400,
    change 1950 5 6 15 0 0 36000,
    change 1950 9 9 15 0 0 32400,
    change 1951 5 5 15 0 0 36000,
    change 1951 9 8 15 0 0 32400]

def kolkata : Zone :=
  .changing 21208 [
    change 1854 6 27 18 6 32 21200,
    change 1869 12 31 18 6 40 19270,
    change 1905 12 31 18 38 50 19800,
    change 1941 9 30 18 30 0 23400,
    change 1942 5 14 17 30 0 19800,
    change 1942 8 31 18 30 0 23400,
    change 1945 10 14 17 30 0 19800]

def kathmandu : Zone :=
  .changing 20476 [
    change 1919 12 31 18 18 44 19800,
    change 1985 12 31 18 30 0 20700]

def monrovia : Zone :=
  .changing (-2588) [
    change 1919 3 1 0 43 8 (-2670),
    change 1972 1 7 0 44 30 0]

def kiritimati : Zone :=
  .changing (-37760) [
    change 1901 1 1 10 29 20 (-38400),
    change 1979 10 1 10 40 0 (-36000),
    change 1994 12 31 10 0 0 50400]

def marquesas : Zone :=
  .changing (-33480) [
    change 1912 10 1 9 18 0 (-34200)]

def apia : Zone :=
  .changing 45184 [
    change 1892 7 4 11 26 56 (-41216),
    change 1911 1 1 11 26 56 (-41400),
    change 1950 1 1 11 30 0 (-39600),
    change 2010 9 26 11 0 0 (-36000),
    change 2011 4 2 14 0 0 (-39600),
    change 2011 9 24 14 0 0 (-36000),
    change 2011 12 30 10 0 0 50400,
    change 2012 3 31 14 0 0 46800,
    change 2012 9 29 14 0 0 50400,
    change 2013 4 6 14 0 0 46800,
    change 2013 9 28 14 0 0 50400,
    change 2014 4 5 14 0 0 46800,
    change 2014 9 27 14 0 0 50400,
    change 2015 4 4 14 0 0 46800,
    change 2015 9 26 14 0 0 50400,
    change 2016 4 2 14 0 0 46800,
    change 2016 9 24 14 0 0 50400,
    change 2017 4 1 14 0 0 46800,
    change 2017 9 23 14 0 0 50400,
    change 2018 3 31 14 0 0 46800,
    change 2018 9 29 14 0 0 50400,
    change 2019 4 6 14 0 0 46800,
    change 2019 9 28 14 0 0 50400,
    change 2020 4 4 14 0 0 46800,
    change 2020 9 26 14 0 0 50400,
    change 2021 4 3 14 0 0 46800]

def saoPaulo : Zone :=
  .changing (-7200) [
    change 2013 2 17 2 0 0 (-10800),
    change 2013 10 20 3 0 0 (-7200),
    change 2014 2 16 2 0 0 (-10800),
    change 2014 10 19 3 0 0 (-7200),
    change 2015 2 22 2 0 0 (-10800),
    change 2015 10 18 3 0 0 (-7200),
    change 2016 2 21 2 0 0 (-10800),
    change 2016 10 16 3 0 0 (-7200),
    change 2017 2 19 2 0 0 (-10800),
    change 2017 10 15 3 0 0 (-7200),
    change 2018 2 18 2 0 0 (-10800),
    change 2018 11 4 3 0 0 (-7200),
    change 2019 2 17 2 0 0 (-10800)]

/-- The first Sunday of a month on or after a day, and a time on it; the time is given in hours and
minutes of UTC, and counts back into the day before where it is negative. -/
def sunday (month day : Nat) (hour minute : Int) : Turn :=
  ⟨month, day, hour * 3600 + minute * 60⟩

def newYork : Zone := .yearly (-18000) (-14400) (sunday 3 8 7 0) (sunday 11 1 6 0)

def losAngeles : Zone := .yearly (-28800) (-25200) (sunday 3 8 10 0) (sunday 11 1 9 0)

def stJohns : Zone := .yearly (-12600) (-9000) (sunday 3 8 5 30) (sunday 11 1 4 30)

def london : Zone := .yearly 0 3600 (sunday 3 25 1 0) (sunday 10 25 1 0)

def berlin : Zone := .yearly 3600 7200 (sunday 3 25 1 0) (sunday 10 25 1 0)

def sydney : Zone := .yearly 36000 39600 (sunday 10 1 (-8) 0) (sunday 4 1 (-8) 0)

def lordHowe : Zone := .yearly 37800 39600 (sunday 10 1 (-8) (-30)) (sunday 4 1 (-9) 0)

def chatham : Zone := .yearly 45900 49500 (sunday 9 24 (-10) 0) (sunday 4 1 (-10) 0)

def catalogue : List (String × Zone) :=
  [("UTC", .fixed 0),
    ("GMT", .fixed 0),
    ("Zulu", .fixed 0),
    ("Etc/UTC", .fixed 0),
    ("Etc/GMT+5", .fixed (-18000)),
    ("Etc/GMT-14", .fixed 50400),
    ("Etc/GMT+12", .fixed (-43200)),
    ("Asia/Tokyo", tokyo),
    ("Asia/Kolkata", kolkata),
    ("Asia/Kathmandu", kathmandu),
    ("Africa/Monrovia", monrovia),
    ("Pacific/Kiritimati", kiritimati),
    ("Pacific/Marquesas", marquesas),
    ("Pacific/Apia", apia),
    ("America/Sao_Paulo", saoPaulo),
    ("America/New_York", newYork),
    ("US/Eastern", newYork),
    ("America/Los_Angeles", losAngeles),
    ("America/St_Johns", stJohns),
    ("Europe/London", london),
    ("Europe/Berlin", berlin),
    ("Australia/Sydney", sydney),
    ("Australia/Lord_Howe", lordHowe),
    ("Pacific/Chatham", chatham)]

def named? (name : String) : Option Zone := catalogue.lookup name

end Zone

def ZoneTable.named : ZoneTable := fun name =>
  (Zone.named? name).map fun zone instant => zone.offsetAt instant

end Recurrence
